import SlotRotation.Proofs.Undisturbed

/-! What becomes of a site is settled by the kernel as it was. The work on one site leaves what the others look at
alone, so every outcome is what the checks say about the input, and no directive changes the outcome of another. -/

namespace SlotRotation

def Alloc.site? (a : Alloc) (id : OpId) : Option Site :=
  a.multibuffer.map fun factor => { alloc := id, buffer := a.result, ty := a.ty, factor, resize := a.remultibuffer }

theorem Alloc.alloc_of_site? {a : Alloc} {id : OpId} {site : Site} (h : a.site? id = some site) :
    site.alloc = id := by
  obtain ⟨factor, -, rfl⟩ := Option.map_eq_some_iff.mp h
  rfl

def Alloc.isOrphan (a : Alloc) : Bool := a.multibuffer.isNone && a.remultibuffer.isSome

namespace Kernel

def sites (k : Kernel) : List Site := k.preorder.filterMap fun id => (k.alloc? id).bind fun a => a.site? id

def orphans (k : Kernel) : List OpId := k.preorder.filter fun id => (k.alloc? id).any Alloc.isOrphan

end Kernel

/-- What becomes of a site, with slots counted. -/
inductive Verdict where
  | expanded (slots : Nat)
  | resized (before slots : Nat)
  | notExpanded (error : Error)
  | notResized (slots : Nat) (error : Error)
deriving DecidableEq

def Fate.verdict : Fate → Verdict
  | .expanded set => .expanded set.factor
  | .resized before set => .resized before set.factor
  | .notExpanded error => .notExpanded error
  | .notResized set error => .notResized set.factor error

def Verdict.error? : Verdict → Option Error
  | .notExpanded error | .notResized _ error => some error
  | .expanded _ | .resized .. => none

namespace Site

def opening (site : Site) (policy : Policy) (k : Kernel) : Verdict :=
  match site.expansion policy k site.factor with
  | .ok _ => .expanded site.factor.toNatClampNeg
  | .error error => .notExpanded error

/-- What the checks and the directives say about a site. -/
def verdict (site : Site) (policy : Policy) (k : Kernel) : Verdict :=
  match site.expansion policy k site.factor, site.resize with
  | .error error, _ => .notExpanded error
  | .ok _, none => .expanded site.factor.toNatClampNeg
  | .ok _, some factor =>
    if factor < 1 then .notResized site.factor.toNatClampNeg (.invalidFactor factor)
    else .resized site.factor.toNatClampNeg factor.toNatClampNeg

end Site

namespace Kernel

variable {k : Kernel} {F : Forest}

theorem Stores.alloc?_strip (h : Stores k F) (id x : OpId) :
    (k.updateAlloc id Alloc.stripped).alloc? x = if x = id then (k.alloc? x).map Alloc.stripped else k.alloc? x := by
  rw [updateAlloc]
  cases ha : k.alloc? id with
  | none =>
    change k.alloc? x = _
    split
    · rename_i heq
      rw [heq, ha]
      rfl
    · rfl
  | some a =>
    obtain ⟨r, hr⟩ := h.placed.op? (h.alloc?_eq_some_iff.mp ha)
    change (k.setInstr id _).alloc? x = _
    rw [alloc?, instr?, op?_setInstr hr]
    split
    · rename_i heq
      rw [heq, ha]
      rfl
    · rfl

theorem Stores.surveyOp_found {s : Transform.State} (h : Stores s.kernel F) (id : OpId) :
    (Transform.surveyOp id s).1.sites = ((s.kernel.alloc? id).bind fun a => a.site? id).toList ∧
      (Transform.surveyOp id s).1.orphans = [id].filter (fun id => (s.kernel.alloc? id).any Alloc.isOrphan) ∧
      ∀ x, x ≠ id → (Transform.surveyOp id s).2.kernel.alloc? x = s.kernel.alloc? x := by
  have hother : ∀ x, x ≠ id → (s.kernel.updateAlloc id Alloc.stripped).alloc? x = s.kernel.alloc? x := by
    intro x hx
    rw [h.alloc?_strip, if_neg hx]
  unfold Transform.surveyOp
  cases ha : s.kernel.alloc? id with
  | none => simp [ha]
  | some a =>
    cases hmulti : a.multibuffer with
    | some factor => simp [ha, hmulti, Alloc.site?, Alloc.isOrphan]; exact hother
    | none =>
      cases hre : a.remultibuffer with
      | some resize => simp [ha, hmulti, hre, Alloc.site?, Alloc.isOrphan]; exact hother
      | none => simp [ha, hmulti, hre, Alloc.site?, Alloc.isOrphan]

theorem Stores.surveyOps_found {s : Transform.State} (h : Stores s.kernel F) {ids : List OpId} (hids : ids.Nodup) :
    (Transform.surveyOps ids s).1.sites = ids.filterMap (fun id => (s.kernel.alloc? id).bind fun a => a.site? id) ∧
      (Transform.surveyOps ids s).1.orphans = ids.filter fun id => (s.kernel.alloc? id).any Alloc.isOrphan := by
  induction ids generalizing s F with
  | nil => exact ⟨rfl, rfl⟩
  | cons id ids ih =>
    obtain ⟨hid, hrest⟩ := List.nodup_cons.mp hids
    obtain ⟨hsites, horphans, hother⟩ := h.surveyOp_found id
    obtain ⟨hsites', horphans'⟩ := ih (h.surveyOp id).1.stores hrest
    have hsame : ∀ x ∈ ids, (Transform.surveyOp id s).2.kernel.alloc? x = s.kernel.alloc? x := fun x hx =>
      hother x fun heq => hid (heq ▸ hx)
    constructor
    · change (Transform.surveyOp id s).1.sites ++ (Transform.surveyOps ids (Transform.surveyOp id s).2).1.sites = _
      rw [hsites, hsites', List.filterMap_cons, List.filterMap_congr fun x hx => by rw [hsame x hx]]
      cases (s.kernel.alloc? id).bind fun a => a.site? id <;> rfl
    · change (Transform.surveyOp id s).1.orphans ++
        (Transform.surveyOps ids (Transform.surveyOp id s).2).1.orphans = _
      have hrest : (ids.filter fun x => ((Transform.surveyOp id s).2.kernel.alloc? x).any Alloc.isOrphan) =
          ids.filter fun x => (s.kernel.alloc? x).any Alloc.isOrphan :=
        List.filter_congr fun x hx => by rw [hsame x hx]
      rw [horphans, horphans', hrest, ← List.filter_append]
      rfl

theorem Stores.survey_found {s : Transform.State} (h : Stores s.kernel F) :
    (Transform.survey s).1.sites = s.kernel.sites ∧ (Transform.survey s).1.orphans = s.kernel.orphans :=
  h.surveyOps_found (h.preorder_eq ▸ h.nodup)

theorem Stores.sites_allocates (h : Stores k F) {site : Site} (hsite : site ∈ k.sites) : F.Allocates site := by
  obtain ⟨id, -, hid⟩ := List.mem_filterMap.mp hsite
  obtain ⟨a, ha, hsome⟩ := Option.bind_eq_some_iff.mp hid
  obtain ⟨factor, -, rfl⟩ := Option.map_eq_some_iff.mp hsome
  exact ⟨a, h.alloc?_eq_some_iff.mp ha, rfl⟩

theorem sites_sublist (k : Kernel) : (k.sites.map Site.alloc).Sublist k.preorder := by
  unfold sites
  induction k.preorder with
  | nil => exact List.Sublist.refl _
  | cons id ids ih =>
    rw [List.filterMap_cons]
    split
    · exact ih.cons id
    · rename_i site hsite
      obtain ⟨a, -, hsome⟩ := Option.bind_eq_some_iff.mp hsite
      rw [List.map_cons, Alloc.alloc_of_site? hsome]
      exact ih.cons_cons id

theorem Stores.nodup_sites (h : Stores k F) : (k.sites.map Site.alloc).Nodup :=
  k.sites_sublist.nodup (h.preorder_eq ▸ h.nodup)

end Kernel

namespace Site

variable {site : Site} {policy : Policy} {k k' : Kernel}

theorem verdict_congr (h : site.Alike k k') : site.verdict policy k' = site.verdict policy k := by
  rw [verdict, verdict, h.expansion_eq]

theorem slots_of_expansion {e : Expansion} {factor : Int64} (h : site.expansion policy k factor = .ok e) :
    e.slots = factor.toNatClampNeg := by
  obtain ⟨slots, hslots, h⟩ := except_bind_eq_ok h
  obtain ⟨_, -, h⟩ := except_bind_eq_ok h
  obtain ⟨_, -, h⟩ := except_bind_eq_ok h
  obtain ⟨_, -, h⟩ := except_bind_eq_ok h
  obtain ⟨_, -, h⟩ := except_bind_eq_ok h
  cases h
  rw [slotsAsked] at hslots
  split at hslots
  · cases hslots
  · exact (Except.ok.inj hslots).symm

theorem except_bind_eq_error_iff {ε α β : Type} {x : Except ε α} {f : α → Except ε β} {e : ε} :
    x >>= f = .error e ↔ x = .error e ∨ ∃ a, x = .ok a ∧ f a = .error e := by
  constructor
  · intro h
    cases x with
    | error e' =>
      cases h
      exact Or.inl rfl
    | ok a => exact Or.inr ⟨a, rfl, h⟩
  · rintro (rfl | ⟨a, rfl, h⟩)
    · rfl
    · exact h

theorem expansion_ne_malformed {factor : Int64} (halloc : site.checkAlloc k = .ok ()) (fault : Malformation) :
    site.expansion policy k factor ≠ .error (.malformed fault) := by
  intro h
  rcases except_bind_eq_error_iff.mp h with h | ⟨_, -, h⟩
  · rw [slotsAsked] at h
    split at h <;> cases h
  rcases except_bind_eq_error_iff.mp h with h | ⟨_, -, h⟩
  · rw [checkElement] at h
    split at h <;> cases h
  rcases except_bind_eq_error_iff.mp h with h | ⟨_, -, h⟩
  · cases halloc.symm.trans h
  rcases except_bind_eq_error_iff.mp h with h | ⟨_, -, h⟩
  · rw [chooseLoop] at h
    split at h <;> cases h
  rcases except_bind_eq_error_iff.mp h with h | ⟨_, -, h⟩
  · rw [checkOverwrite] at h
    split at h <;> cases h
  · cases h

theorem verdict_ne_malformed (halloc : site.checkAlloc k = .ok ()) (fault : Malformation) :
    (site.verdict policy k).error? ≠ some (.malformed fault) := by
  intro h
  rw [verdict] at h
  split at h
  · rename_i error herr
    exact expansion_ne_malformed halloc fault (herr.trans (congrArg _ (Option.some.inj h)))
  · cases h
  · split at h <;> cases h

end Site

namespace Kernel

open SiteResult

variable {policy : Policy} {sites : List Site} {k₀ k k' : Kernel} {F F' : Forest} {site : Site} {o o' : SiteResult}
  {done todo : List SiteResult} {rest : List Site}

/-- The sites that are left look at the kernel as they did at the start, and the others came out as the checks
said. -/
structure Foreseen (policy : Policy) (k₀ : Kernel) (sites : List Site) (k : Kernel) (F : Forest)
    (done : List SiteResult) (rest : List Site) : Prop where
  all : done.map SiteResult.site ++ rest = sites
  ready : ∀ site ∈ rest, F.Allocates site ∧ site.Alike k₀ k
  opened : ∀ o ∈ done, o.status.verdict = o.site.opening policy k₀

theorem Foreseen.expand (hsites : (sites.map Site.alloc).Nodup) (h : Upholds policy sites k F (setsOf done))
    (hinv : Foreseen policy k₀ sites k F done (site :: rest)) (hstep : ExpandStep policy site k F o k' F') :
    Foreseen policy k₀ sites k' F' (done ++ [o]) rest := by
  have hS := h.carries.stores
  obtain ⟨hallocates, halike⟩ := hinv.ready site List.mem_cons_self
  have hmem : ∀ other ∈ rest, other ∈ sites := fun other ho => by
    rw [← hinv.all]
    exact List.mem_append_right _ (List.mem_cons_of_mem _ ho)
  have hne : ∀ other ∈ rest, other.alloc ≠ site.alloc := by
    intro other ho heq
    rw [← hinv.all, List.map_append, List.map_cons] at hsites
    have hnodup := (List.nodup_append.mp hsites).2.1
    exact (List.nodup_cons.mp hnodup).1 (heq ▸ List.mem_map_of_mem ho)
  have hexpansion := halike.expansion_eq policy site.factor
  have hall : ∀ status : Fate, (done ++ [(⟨site, status⟩ : SiteResult)]).map SiteResult.site ++ rest = sites := by
    intro status
    rw [← hinv.all, List.map_append, List.append_assoc]
    rfl
  have hopened : ∀ status : Fate, status.verdict = site.opening policy k₀ →
      ∀ o ∈ done ++ [⟨site, status⟩], o.status.verdict = o.site.opening policy k₀ := by
    intro status hstatus o ho
    rcases List.mem_append.mp ho with ho | ho
    · exact hinv.opened o ho
    · rw [List.mem_singleton.mp ho]
      exact hstatus
  cases hstep with
  | refused herr =>
    refine ⟨hall _, fun other ho => hinv.ready other (List.mem_cons_of_mem _ ho), hopened _ ?_⟩
    rw [Site.opening, ← hexpansion, herr]
    rfl
  | @expanded e a l set k' E guard rot he hcount hinstalls hinserted =>
    refine ⟨hall _, fun other ho => ?_, hopened _ ?_⟩
    · obtain ⟨hother, hsame⟩ := hinv.ready other (List.mem_cons_of_mem _ ho)
      have hout : other.alloc ∉ (e.footprint site a).ids := by
        intro hid
        obtain ⟨n, hn, heq⟩ := List.mem_map.mp hid
        rcases Expansion.mem_footprint.mp hn with rfl | ⟨use, huse, rfl⟩
        · exact hne other ho heq.symm
        · obtain ⟨b, hb, -⟩ := hother
          have hrelease := (hS.expansion_sound (h.carries.visible.reaches _) he).releases use huse
          change use.user = other.alloc at heq
          rw [heq] at hrelease
          cases Forest.node_unique hS.nodup hb hrelease
      have hcontrol := (h.carries.ahead other (hmem other ho)).control
      have hregards := hinstalls.regards hS hother hout hcontrol
      exact ⟨hS.allocates_rewrite hregards hother, hsame.trans (hS.alike_rewrite hinstalls.stores hregards hother)⟩
    · rw [Site.opening, ← hexpansion, he]
      change Verdict.expanded set.slots.length = .expanded _
      rw [hcount, Site.slots_of_expansion he]

structure Fulfilled (policy : Policy) (k₀ : Kernel) (sites : List Site) (done todo : List SiteResult) : Prop where
  all : (done ++ todo).map SiteResult.site = sites
  closed : ∀ o ∈ done, o.status.verdict = o.site.verdict policy k₀
  opened : ∀ o ∈ todo, o.status.verdict = o.site.opening policy k₀

theorem verdict_of_pending?_eq_none (hopened : o.status.verdict = o.site.opening policy k₀)
    (hnone : o.pending? = none) : o.status.verdict = o.site.verdict policy k₀ := by
  rw [hopened, Site.opening, Site.verdict]
  cases hexpansion : o.site.expansion policy k₀ o.site.factor with
  | error err => rfl
  | ok e =>
    rw [Site.opening, hexpansion] at hopened
    cases hresize : o.site.resize with
    | none => rfl
    | some factor =>
      cases hstatus : o.status with
      | expanded set => cases hnone.symm.trans (pending?_eq_some_iff.mpr ⟨hstatus, hresize⟩)
      | _ => rw [hstatus] at hopened; cases hopened

theorem verdict_of_pending?_eq_some {set : SlotSet} {factor : Int64}
    (hopened : o.status.verdict = o.site.opening policy k₀) (hpending : o.pending? = some (set, factor)) :
    set.factor = o.site.factor.toNatClampNeg ∧ o.site.verdict policy k₀ =
      if factor < 1 then .notResized set.factor (.invalidFactor factor)
      else .resized set.factor factor.toNatClampNeg := by
  obtain ⟨hstatus, hresize⟩ := pending?_eq_some_iff.mp hpending
  rw [hstatus, Site.opening] at hopened
  cases hexpansion : o.site.expansion policy k₀ o.site.factor with
  | error err => rw [hexpansion] at hopened; cases hopened
  | ok e =>
    rw [hexpansion] at hopened
    have hfactor : set.factor = o.site.factor.toNatClampNeg := Verdict.expanded.inj hopened
    rw [Site.verdict, hexpansion, hresize, hfactor]
    exact ⟨rfl, rfl⟩

theorem Fulfilled.resize (hinv : Fulfilled policy k₀ sites done (o :: todo))
    (hstep : ResizeStep policy o k F o' k' F') : Fulfilled policy k₀ sites (done ++ [o']) todo := by
  have hopened := hinv.opened o List.mem_cons_self
  have hsite : o'.site = o.site := by cases hstep <;> rfl
  have hverdict : o'.status.verdict = o'.site.verdict policy k₀ := by
    rw [hsite]
    cases hstep with
    | kept hnone => exact verdict_of_pending?_eq_none hopened hnone
    | refused hpending herr =>
      obtain ⟨-, heq⟩ := verdict_of_pending?_eq_some hopened hpending
      rw [slotsAsked] at herr
      split at herr
      · rename_i hlt
        cases herr
        rw [heq, if_pos hlt]
        rfl
      · cases herr
    | @resized set set' factor target k₁ k' F₁ l ns guard rot E hpending hasked hlength =>
      obtain ⟨-, heq⟩ := verdict_of_pending?_eq_some hopened hpending
      rw [slotsAsked] at hasked
      split at hasked
      · cases hasked
      · rename_i hlt
        rw [heq, if_neg hlt, Except.ok.inj hasked, ← hlength]
        rfl
  refine ⟨?_, fun x hx => ?_, fun x hx => hinv.opened x (List.mem_cons_of_mem _ hx)⟩
  · rw [← hinv.all]
    simp [hsite]
  · rcases List.mem_append.mp hx with hx | hx
    · exact hinv.closed x hx
    · rw [List.mem_singleton.mp hx]
      exact hverdict

end Kernel

namespace Transform

open Kernel SiteResult

variable {s : State} {F : Forest}

theorem multibuffer_verdicts (hF : Stores s.kernel F) (hv : s.kernel.verify = .ok ())
    (hbounds : s.kernel.PlainBounds) (policy : Policy) :
    (multibuffer policy s).1.outcomes.map (fun o => (o.site, o.status.verdict)) =
      s.kernel.sites.map fun site => (site, site.verdict policy s.kernel) := by
  have hcarries := hF.survey hv hbounds
  have halike : ∀ site ∈ s.kernel.sites, (F.rewrite (.stripping s.kernel.preorder)).Allocates site ∧
      site.Alike s.kernel (survey s).2.kernel := by
    intro site hsite
    have hallocates := hF.sites_allocates hsite
    have hregards := regards_stripping s.kernel.preorder F site
    exact ⟨hF.allocates_rewrite hregards hallocates, hF.alike_rewrite hcarries.stores hregards hallocates⟩
  have hstart : Foreseen policy s.kernel s.kernel.sites (survey s).2.kernel
      (F.rewrite (.stripping s.kernel.preorder)) [] (survey s).1.sites :=
    ⟨hF.survey_found.1, hF.survey_found.1.symm ▸ halike, by simp⟩
  obtain ⟨history, outcomes, s', F', heq, -, hinv⟩ := multibuffer_induction
    (fun k G done rest => Foreseen policy s.kernel s.kernel.sites k G done rest)
    (fun _ _ done todo => Fulfilled policy s.kernel s.kernel.sites done todo) hcarries hstart
    (fun h _ hinv hstep _ => hinv.expand hF.nodup_sites (hF.survey_found.1 ▸ h) hstep)
    (fun _ hinv => ⟨by simpa using hinv.all, by simp, hinv.opened⟩) (fun _ hinv hstep _ => hinv.resize hstep)
  rw [heq]
  change outcomes.map _ = _
  rw [← hinv.all, List.append_nil, List.map_map]
  refine List.map_congr_left fun o ho => ?_
  rw [hinv.closed o ho]
  rfl

theorem multibuffer_report (hF : Stores s.kernel F) (policy : Policy) : ∃ name history,
    (multibuffer policy s).1 = conclude policy name history (multibuffer policy s).1.outcomes s.kernel.orphans := by
  obtain ⟨-, -, outcomes, s', history, -, -, heq⟩ := exists_run policy s
  rw [heq, hF.survey_found.2]
  exact ⟨_, _, rfl⟩

theorem isSuccess_eq_false_iff {o : SiteResult} : o.isSuccess = false ↔ o.error?.isSome := by
  obtain ⟨site, status⟩ := o
  cases status <;> simp [isSuccess, error?]

theorem phase_conclude {policy : Policy} {name : String} {history : List Phase} {outcomes : List SiteResult}
    {orphans : List OpId} {report : Report} (h : report = conclude policy name history outcomes orphans) :
    (report.phase = .failed ↔ (∃ o ∈ outcomes, o.error?.isSome) ∨ (policy.orphansFail = true ∧ orphans ≠ [])) ∧
      (report.phase = .done ∨ report.phase = .failed) ∧ (report.diagnostic.isSome ↔ report.phase = .failed) := by
  subst h
  have hany : (outcomes.any fun o => !o.isSuccess) = true ↔ ∃ o ∈ outcomes, o.error?.isSome := by
    simp only [List.any_eq_true, Bool.not_eq_true', isSuccess_eq_false_iff]
  have hfailed : ((policy.orphansFail && !orphans.isEmpty) || outcomes.any fun o => !o.isSuccess) = true ↔
      (∃ o ∈ outcomes, o.error?.isSome) ∨ (policy.orphansFail = true ∧ orphans ≠ []) := by
    rw [Bool.or_eq_true, hany, or_comm]
    simp
  rw [← hfailed]
  unfold conclude
  cases ((policy.orphansFail && !orphans.isEmpty) || outcomes.any fun o => !o.isSuccess) <;> simp

end Transform

namespace Kernel

variable {k : Kernel} {F : Forest}

theorem Stores.becomes_strip (h : Stores k F) (x : OpId) :
    Becomes k (k.updateAlloc x Alloc.stripped) F (.stripping [x]) := by
  cases ha : k.alloc? x with
  | some a => exact (h.strip (h.alloc?_eq_some_iff.mp ha)).1
  | none =>
    rw [updateAlloc, ha]
    refine h.strip_nothing fun y hy i hi => ?_
    rw [List.mem_singleton.mp hy] at hi
    cases i with
    | alloc a => cases ha.symm.trans (h.alloc?_eq_some_iff.mpr hi)
    | _ => rfl

theorem ids_stripping (hP : F.Plain) (ids : List OpId) : (F.rewrite (.stripping ids)).ids = F.ids := by
  rw [Forest.ids, Forest.nodes_rewrite hP, List.map_flatMap, Forest.ids, List.map_eq_flatMap]
  refine List.flatMap_congr fun n _ => ?_
  rw [Rewriting.image_stripping]
  rfl

theorem Stores.sites_strip (h : Stores k F) (x : OpId) :
    (k.updateAlloc x Alloc.stripped).sites = k.sites.filter fun site => site.alloc ≠ x := by
  have hpreorder : (k.updateAlloc x Alloc.stripped).preorder = k.preorder := by
    rw [(h.becomes_strip x).stores.preorder_eq, h.preorder_eq, ids_stripping h.plain]
  rw [sites, sites, hpreorder]
  induction k.preorder with
  | nil => rfl
  | cons id ids ih =>
    rw [List.filterMap_cons, List.filterMap_cons, ih, h.alloc?_strip]
    by_cases hid : id = x
    · -- the allocation itself is no site any more
      have hnone : (((k.alloc? id).map Alloc.stripped).bind fun a => a.site? id) = none := by
        cases k.alloc? id <;> rfl
      rw [if_pos hid, hnone]
      cases hsite : (k.alloc? id).bind fun a => a.site? id with
      | none => rfl
      | some site =>
        obtain ⟨a, -, ha⟩ := Option.bind_eq_some_iff.mp hsite
        simp [Alloc.alloc_of_site? ha, hid]
    · rw [if_neg hid]
      cases hsite : (k.alloc? id).bind fun a => a.site? id with
      | none => rfl
      | some site =>
        obtain ⟨a, -, ha⟩ := Option.bind_eq_some_iff.mp hsite
        simp [Alloc.alloc_of_site? ha, hid]

theorem Stores.plainBounds_strip (h : Stores k F) (hbounds : k.PlainBounds) (x : OpId) :
    (k.updateAlloc x Alloc.stripped).PlainBounds := by
  have hS := (h.becomes_strip x).stores
  intro a ha hsome l hl
  obtain ⟨id, ha⟩ := hS.mem_allocs_iff.mp ha
  obtain ⟨id', hl⟩ := hS.mem_loops_iff.mp hl
  obtain ⟨i, hi, heq⟩ := (Forest.mem_stripping h.plain [x]).mp ha
  obtain ⟨j, hj, heq'⟩ := (Forest.mem_stripping h.plain [x]).mp hl
  have hloop : j = .loop l := by
    cases j with
    | loop m => simpa [Instr.stripped] using heq'.symm
    | _ => split at heq' <;> cases heq'
  have halloc : i = .alloc a := by
    split at heq
    · cases i with
      | alloc b => cases heq; cases hsome
      | _ => cases heq
    · exact heq.symm
  subst hloop halloc
  exact hbounds a (h.mem_allocs_iff.mpr ⟨_, hi⟩) hsome l (h.mem_loops_iff.mpr ⟨_, hj⟩)

end Kernel

namespace Transform

open Kernel SiteResult

variable {s : State} {F : Forest}

theorem multibuffer_strip (hF : Stores s.kernel F) (hv : s.kernel.verify = .ok ()) (hbounds : s.kernel.PlainBounds)
    (policy : Policy) (x : OpId) :
    (multibuffer policy { s with kernel := s.kernel.updateAlloc x Alloc.stripped }).1.outcomes.map
        (fun o => (o.site, o.status.verdict)) =
      ((multibuffer policy s).1.outcomes.filter fun o => o.site.alloc ≠ x).map fun o =>
        (o.site, o.status.verdict) := by
  have hS := (hF.becomes_strip x).stores
  have hv' : (s.kernel.updateAlloc x Alloc.stripped).verify = .ok () :=
    hS.verify_eq_ok_iff.mpr ((hF.verify_eq_ok_iff.mp hv).stripping hF.plain [x] hF.nodup)
  have halike : ∀ site ∈ s.kernel.sites, site.Alike s.kernel (s.kernel.updateAlloc x Alloc.stripped) :=
    fun site hsite => hF.alike_rewrite hS (regards_stripping [x] F site) (hF.sites_allocates hsite)
  have hfilter : ∀ outcomes : List SiteResult, (outcomes.filter fun o => o.site.alloc ≠ x).map
      (fun o => (o.site, o.status.verdict)) =
        (outcomes.map fun o => (o.site, o.status.verdict)).filter fun p => p.1.alloc ≠ x := by
    intro outcomes
    rw [List.filter_map]
    rfl
  rw [hfilter, multibuffer_verdicts hF hv hbounds,
    multibuffer_verdicts (s := { s with kernel := s.kernel.updateAlloc x Alloc.stripped }) hS hv'
      (hF.plainBounds_strip hbounds x) policy]
  change (s.kernel.updateAlloc x Alloc.stripped).sites.map _ = _
  rw [hF.sites_strip, List.filter_map]
  refine List.map_congr_left fun site hsite => ?_
  rw [Site.verdict_congr (halike site (List.mem_filter.mp hsite).1)]

theorem error?_ne_malformed (hF : Stores s.kernel F) (hv : s.kernel.verify = .ok ()) (hbounds : s.kernel.PlainBounds)
    (policy : Policy) : ∀ o ∈ (multibuffer policy s).1.outcomes, ∀ fault, o.error? ≠ some (.malformed fault) := by
  intro o ho fault
  have hmem := List.mem_map_of_mem (f := fun o : SiteResult => (o.site, o.status.verdict)) ho
  rw [multibuffer_verdicts hF hv hbounds] at hmem
  obtain ⟨site, hsite, heq⟩ := List.mem_map.mp hmem
  have hverdict : site.verdict policy s.kernel = o.status.verdict := congrArg Prod.snd heq
  have herror : o.error? = o.status.verdict.error? := by
    obtain ⟨site, status⟩ := o
    cases status <;> rfl
  rw [herror, ← hverdict]
  exact Site.verdict_ne_malformed (hF.checkAlloc_eq (hF.sites_allocates hsite)) fault

/-- The outcomes are those that the input calls for, one for each site and none a malformation; the sets are good,
the report is one of failure exactly if an outcome or an orphan calls for it, and it holds without the directives of
any one allocation. -/
theorem multibuffer_outcomes {name : String} {location : Location} {stmts : List Stmt} (s : State)
    (hs : s.kernel = build name location stmts) (hv : s.kernel.verify = .ok ()) (hbounds : s.kernel.PlainBounds)
    (policy : Policy) :
    (multibuffer policy s).1.outcomes.map (fun o => (o.site, o.status.verdict)) =
        s.kernel.sites.map (fun site => (site, site.verdict policy s.kernel)) ∧
      (∀ o ∈ (multibuffer policy s).1.outcomes, ∀ fault, o.error? ≠ some (.malformed fault)) ∧
      (∀ set ∈ (multibuffer policy s).1.sets, set.Good (multibuffer policy s).2.kernel) ∧
      ((multibuffer policy s).1.phase = .failed ↔ (∃ o ∈ (multibuffer policy s).1.outcomes, o.error?.isSome) ∨
        (policy.orphansFail = true ∧ s.kernel.orphans ≠ [])) ∧
      ((multibuffer policy s).1.phase = .done ∨ (multibuffer policy s).1.phase = .failed) ∧
      ((multibuffer policy s).1.diagnostic.isSome ↔ (multibuffer policy s).1.phase = .failed) ∧
      ∀ x, (multibuffer policy { s with kernel := s.kernel.updateAlloc x Alloc.stripped }).1.outcomes.map
          (fun o => (o.site, o.status.verdict)) =
        ((multibuffer policy s).1.outcomes.filter fun o => o.site.alloc ≠ x).map fun o =>
          (o.site, o.status.verdict) := by
  obtain ⟨F, hF⟩ := build_stores name location stmts
  rw [← hs] at hF
  obtain ⟨F', hupholds⟩ := multibuffer_upholds s hF hv hbounds policy
  obtain ⟨reported, history, hreport⟩ := multibuffer_report hF policy
  obtain ⟨hphase, hterminal, hdiagnostic⟩ := phase_conclude hreport
  have hgood : ∀ set ∈ (multibuffer policy s).1.sets, set.Good (multibuffer policy s).2.kernel := fun set hset =>
    (hupholds.carries.in_place set hset).fits.good hupholds.carries.stores
  exact ⟨multibuffer_verdicts hF hv hbounds policy, error?_ne_malformed hF hv hbounds policy, hgood, hphase,
    hterminal, hdiagnostic, multibuffer_strip hF hv hbounds policy⟩

/-- Both tiles are expanded and resized. -/
theorem multibuffer_outcomes_tilePair :
    let s : State := { kernel := build "pair" .unknown Stmt.tilePair, pass := "slots" }
    (multibuffer {} s).1.outcomes.map (fun o => (o.site, o.status.verdict)) =
        s.kernel.sites.map (fun site => (site, site.verdict {} s.kernel)) ∧
      (s.kernel.sites.map fun site => site.verdict {} s.kernel) = [.resized 1 2, .resized 1 3] :=
  ⟨(multibuffer_outcomes _ rfl (by decide +kernel) (by decide +kernel) {}).1, by decide +kernel⟩

end Transform
end SlotRotation
