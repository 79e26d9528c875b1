import SlotRotation.Proofs.Goodness
import SlotRotation.Proofs.Stages
import SlotRotation.Transform.Report

/-! The work on one kernel from directives to slots, one site after the other. What a single step does is said once,
and an invariant of the steps holds at the end. -/

namespace SlotRotation

namespace Kernel

variable {policy : Policy} {k : Kernel} {F : Forest}

/-- What the work on a site comes to: it is refused for a reason that is in the kernel, or a set is put in place. -/
inductive ExpandStep (policy : Policy) (site : Site) (k : Kernel) (F : Forest) : SiteResult → Kernel → Forest → Prop
  | refused {err : Error} : site.expansion policy k site.factor = .error err →
    ExpandStep policy site k F ⟨site, .notExpanded err⟩ k F
  | expanded {e : Expansion} {a : Alloc} {l : Loop} {set : SlotSet} {k' : Kernel} {E : Exchange F}
    {guard rot : List Node} : site.expansion policy k site.factor = .ok e → set.slots.length = e.slots →
    Installs k k' E (e.footprint site a) set l guard rot → (∀ n ∈ guard, set.guard = some ⟨n.1, true⟩) →
    ExpandStep policy site k F ⟨site, .expanded set⟩ k' E.result

inductive ResizeStep (policy : Policy) (o : SiteResult) (k : Kernel) (F : Forest) :
    SiteResult → Kernel → Forest → Prop
  | kept : o.pending? = none → ResizeStep policy o k F o k F
  | refused {set : SlotSet} {factor : Int64} {err : Error} : o.pending? = some (set, factor) →
    slotsAsked factor = .error err → ResizeStep policy o k F { o with status := .notResized set err } k F
  | resized {set set' : SlotSet} {factor : Int64} {target : Nat} {k₀ k' : Kernel} {F₀ : Forest} {l : Loop}
    {ns guard rot : List Node} {E : Exchange F₀} : o.pending? = some (set, factor) → slotsAsked factor = .ok target →
    set'.slots.length = target → set'.ty = set.ty → set'.loop = set.loop → Clears policy set target k k₀ F F₀ →
    Installs k₀ k' E (set.footprint ns) set' l guard rot → Renews policy set target k F₀ set'.guard guard →
    ResizeStep policy o k F { o with status := .resized set.factor set' } k' E.result

/-- The sets stand in the kernel, the sites are ready, and every set has the guard it needs. -/
structure Upholds (policy : Policy) (sites : List Site) (k : Kernel) (F : Forest) (sets : List SlotSet) : Prop where
  carries : Carries k F sites sets
  guarded : ∀ set ∈ sets, set.Guarded policy k F

end Kernel

theorem Forest.InScope.sublist_ids {F : Forest} {d u : OpId} (h : F.InScope d u) : [d, u].Sublist F.ids := by
  induction F with
  | nil => exact h.elim
  | op id i rest ih =>
    rcases h with ⟨rfl, hu⟩ | h
    · exact (List.singleton_sublist.mpr hu).cons_cons id
    · exact (ih h).cons id
  | loop id l body rest ihb ihr =>
    rw [ids_loop]
    rcases h with ⟨rfl, hu⟩ | h | h
    · exact (List.singleton_sublist.mpr (List.mem_append_left _ hu)).cons_cons id
    · exact ((ihb h).trans (List.sublist_append_left ..)).cons id
    · exact ((ihr h).trans (List.sublist_append_right ..)).cons id

namespace SlotSet

def readers (set : SlotSet) : List OpId := set.selector :: set.bindings.map fun binding => binding.use.user

/-- The barrier `g` is the first op of the loop body, so it is ahead of the selector and of all that is read through
it. -/
structure LedBy (set : SlotSet) (k : Kernel) (g : OpId) : Prop where
  barrier : k.instr? g = some .barrier
  first : ∃ l, k.loop? set.loop = some l ∧ (k.regionOps l.body).head? = some g
  inside : ∀ x ∈ set.readers, k.isAncestor set.loop x
  ahead : ∀ x ∈ set.readers, [g, x].Sublist k.preorder

variable {set : SlotSet} {k : Kernel} {F : Forest}

theorem Fits.inScope_reader (h : set.Fits F) (hS : k.Stores F) (hF : F.Scoped) {x : OpId} (hx : x ∈ set.readers) :
    F.InScope set.loop x := by
  have hselector := (h.inside set.selector List.mem_cons_self).inScope hS.nodup
  rcases List.mem_cons.mp hx with rfl | hx
  · exact hselector
  · obtain ⟨binding, hbinding, rfl⟩ := List.mem_map.mp hx
    have huse := (h.selected_uses binding.use).mpr (List.mem_map_of_mem hbinding)
    obtain ⟨i, hi, hread⟩ := Forest.mem_uses.mp huse
    obtain ⟨d, hd, hresult, hscope⟩ := hF _ hi _ (List.mem_of_getElem? hread)
    rw [hS.result_unique hd h.selects hresult rfl] at hscope
    exact hselector.trans hS.nodup hscope

theorem Fits.ledBy (h : set.Fits F) (hS : k.Stores F) (hF : F.Scoped) {g : OpId} (hg : F.Leads set.loop g) :
    set.LedBy k g := by
  have hne : ∀ x ∈ set.readers, x ≠ g := by
    rintro x hx rfl
    rcases List.mem_cons.mp hx with rfl | hx
    · cases Forest.node_unique hS.nodup h.selects hg.mem_nodes
    · -- a barrier reads nothing
      obtain ⟨binding, hbinding, rfl⟩ := List.mem_map.mp hx
      have huse := (h.selected_uses binding.use).mpr (List.mem_map_of_mem hbinding)
      obtain ⟨i, hi, hread⟩ := Forest.mem_uses.mp huse
      rw [Forest.node_unique hS.nodup hi hg.mem_nodes] at hread
      cases hread
  have hscope : ∀ x ∈ set.readers, F.InScope g x := fun x hx =>
    hg.inScope hS.nodup (h.inScope_reader hS hF hx) (hne x hx)
  obtain ⟨l, B, hB⟩ := hg
  refine ⟨hS.instr?_of_mem (Forest.Leads.mem_nodes ⟨l, B, hB⟩), ⟨l, hS.loop?_eq_some_iff.mpr hB.mem_nodes, ?_⟩, ?_,
    ?_⟩
  · rw [(hS.placed.holds hB).1]
    rfl
  · intro x hx
    have hin := h.inScope_reader hS hF hx
    exact (hS.isAncestor_iff hin.right_mem).mpr ⟨hin, l, hB.mem_nodes⟩
  · intro x hx
    rw [hS.preorder_eq]
    exact (hscope x hx).sublist_ids

end SlotSet

theorem SiteResult.pending?_eq_some_iff {o : SiteResult} {set : SlotSet} {factor : Int64} :
    o.pending? = some (set, factor) ↔ o.status = .expanded set ∧ o.site.resize = some factor := by
  obtain ⟨site, status⟩ := o
  cases status with
  | expanded set' => cases hresize : site.resize <;> simp [pending?, hresize]
  | _ => simp [pending?]

def SiteResult.setsOf (outcomes : List SiteResult) : List SlotSet := outcomes.filterMap SiteResult.set?

theorem SiteResult.setsOf_append (as bs : List SiteResult) : setsOf (as ++ bs) = setsOf as ++ setsOf bs :=
  List.filterMap_append

theorem SiteResult.setsOf_middle {o : SiteResult} {set : SlotSet} (h : o.set? = some set)
    (done todo : List SiteResult) : setsOf (done ++ o :: todo) = setsOf done ++ set :: setsOf todo := by
  rw [setsOf_append]
  exact congrArg _ (List.filterMap_cons_some h)

namespace Transform

open Kernel SiteResult

variable {α : Type} {t : Transform α} {k k' : Kernel} {a : α} {s : State} {policy : Policy} {sites : List Site}
    {F : Forest}

theorem Does.attempt (h : Does t k a k') (hs : s.kernel = k) :
    ∃ s', Transform.attempt t s = (.ok a, s') ∧ s'.kernel = k' := by
  obtain ⟨s', hrun, hk⟩ := h s hs
  exact ⟨s', attempt_of_ok hrun, hk⟩

theorem attempt_query {β : Type} {q : Kernel → Except Error α} {f : α → Transform β} {err : Error}
    (h : q s.kernel = .error err) : attempt (query q >>= f) s = (.error err, s) :=
  attempt_of_error (query_bind_error h)

theorem stateBind_eq {σ β γ : Type} {x : StateM σ β} {f : β → StateM σ γ} {s s' : σ} {b : β} (h : x s = (b, s')) :
    (x >>= f) s = f b s' := by
  change (match x s with | (b, s) => f b s) = _
  rw [h]

theorem expandSite_step {done : List SiteResult} (h : Upholds policy sites s.kernel F (setsOf done)) {site : Site}
    (hsite : site ∈ sites) :
    ∃ o s' F', expandSite policy site s = (o, s') ∧ ExpandStep policy site s.kernel F o s'.kernel F' ∧
      Upholds policy sites s'.kernel F' (setsOf (done ++ [o])) := by
  rw [expandSite]
  simp only [setsOf_append]
  rcases h.carries.expand hsite policy site.factor with ⟨err, herr⟩ |
    ⟨e, a, l, set, k', E, guard, rot, hdoes, he, hcount, hinstalls, hinserted, hcarries, hguarded⟩
  · refine ⟨⟨site, .notExpanded err⟩, _, F, stateBind_eq (attempt_query herr), .refused herr, ?_⟩
    have hnone : setsOf [(⟨site, .notExpanded err⟩ : SiteResult)] = [] := rfl
    rw [hnone, List.append_nil]
    exact h
  · obtain ⟨s', hrun, rfl⟩ := hdoes.attempt rfl
    exact ⟨⟨site, .expanded set⟩, s', E.result, stateBind_eq hrun, .expanded he hcount hinstalls hinserted, hcarries,
      hguarded h.guarded⟩

theorem resizeOutcome_step {done todo : List SiteResult} {o : SiteResult}
    (h : Upholds policy sites s.kernel F (setsOf (done ++ o :: todo))) :
    ∃ o' s' F', resizeOutcome policy o s = (o', s') ∧ ResizeStep policy o s.kernel F o' s'.kernel F' ∧
      Upholds policy sites s'.kernel F' (setsOf (done ++ o' :: todo)) := by
  rw [resizeOutcome]
  cases hpending : o.pending? with
  | none => exact ⟨o, s, F, rfl, .kept hpending, h⟩
  | some pair =>
    obtain ⟨set, factor⟩ := pair
    obtain ⟨hstatus, -⟩ := pending?_eq_some_iff.mp hpending
    have hset : o.set? = some set := by rw [set?, hstatus]
    rw [setsOf_middle hset] at h
    rcases h.carries.resize policy factor with ⟨-, hreason⟩ | ⟨target, set', k₀, k', F₀, l, ns, E, guard, rot, hdoes,
      hasked, hlength, hty, hloop, hclears, hinstalls, hrenews, hcarries, hguarded⟩
    · obtain ⟨err, herr⟩ : ∃ err, slotsAsked factor = .error err := by
        rcases hreason with herr | ⟨g, hg, hdead⟩
        · exact herr
        · -- the guard of a set leads its loop, so it is there
          have hlead := (h.guarded set (by simp)).2 g hg
          exact absurd (Forest.mem_ids_of_mem_nodes hlead.mem_nodes) hdead
      refine ⟨{ o with status := .notResized set err }, _, F, stateBind_eq (attempt_query herr),
        .refused hpending herr, ?_⟩
      rw [setsOf_middle rfl]
      exact h
    · obtain ⟨s', hrun, rfl⟩ := hdoes.attempt rfl
      refine ⟨{ o with status := .resized set.factor set' }, s', E.result, stateBind_eq hrun,
        .resized hpending hasked hlength hty hloop hclears hinstalls hrenews, ?_⟩
      rw [setsOf_middle rfl]
      exact ⟨hcarries, hguarded h.guarded⟩

theorem expandSites_induction {Inv : State → Forest → List SiteResult → List Site → Prop}
    (hstep : ∀ {s F done site todo o s' F'}, Upholds policy sites s.kernel F (setsOf done) → site ∈ sites →
      Inv s F done (site :: todo) → expandSite policy site s = (o, s') →
      ExpandStep policy site s.kernel F o s'.kernel F' →
      Upholds policy sites s'.kernel F' (setsOf (done ++ [o])) → Inv s' F' (done ++ [o]) todo)
    {todo : List Site} (htodo : ∀ site ∈ todo, site ∈ sites) {done : List SiteResult}
    (h : Upholds policy sites s.kernel F (setsOf done)) (hinv : Inv s F done todo) :
    ∃ outcomes s' F', expandSites policy todo s = (outcomes, s') ∧
      Upholds policy sites s'.kernel F' (setsOf (done ++ outcomes)) ∧ Inv s' F' (done ++ outcomes) [] := by
  induction todo generalizing s F done with
  | nil => exact ⟨[], s, F, rfl, by rwa [List.append_nil], by rwa [List.append_nil]⟩
  | cons site todo ih =>
    have hsite := htodo site List.mem_cons_self
    obtain ⟨o, s₁, F₁, hrun, hone, h₁⟩ := expandSite_step h hsite
    obtain ⟨outcomes, s₂, F₂, hrun', h₂, hinv₂⟩ := ih (fun x hx => htodo x (List.mem_cons_of_mem _ hx)) h₁
      (hstep h hsite hinv hrun hone h₁)
    rw [List.append_assoc] at h₂ hinv₂
    refine ⟨o :: outcomes, s₂, F₂, ?_, h₂, hinv₂⟩
    rw [expandSites, stateBind_eq hrun, stateBind_eq hrun']
    rfl

theorem resizeOutcomes_induction {Inv : State → Forest → List SiteResult → List SiteResult → Prop}
    (hstep : ∀ {s F done o todo o' s' F'}, Upholds policy sites s.kernel F (setsOf (done ++ o :: todo)) →
      Inv s F done (o :: todo) → resizeOutcome policy o s = (o', s') →
      ResizeStep policy o s.kernel F o' s'.kernel F' →
      Upholds policy sites s'.kernel F' (setsOf (done ++ o' :: todo)) → Inv s' F' (done ++ [o']) todo)
    {done todo : List SiteResult} (h : Upholds policy sites s.kernel F (setsOf (done ++ todo)))
    (hinv : Inv s F done todo) :
    ∃ outcomes s' F', resizeOutcomes policy todo s = (outcomes, s') ∧
      Upholds policy sites s'.kernel F' (setsOf (done ++ outcomes)) ∧ Inv s' F' (done ++ outcomes) [] := by
  induction todo generalizing s F done with
  | nil => exact ⟨[], s, F, rfl, h, by rwa [List.append_nil]⟩
  | cons o todo ih =>
    obtain ⟨o', s₁, F₁, hrun, hone, h₁⟩ := resizeOutcome_step h
    have hinv₁ := hstep h hinv hrun hone h₁
    rw [← List.singleton_append, ← List.append_assoc] at h₁
    obtain ⟨outcomes, s₂, F₂, hrun', h₂, hinv₂⟩ := ih h₁ hinv₁
    rw [List.append_assoc] at h₂ hinv₂
    refine ⟨o' :: outcomes, s₂, F₂, ?_, h₂, hinv₂⟩
    rw [resizeOutcomes, stateBind_eq hrun, stateBind_eq hrun']
    rfl

theorem resizeOutcomes_of_none {outcomes : List SiteResult} (h : ∀ o ∈ outcomes, o.pending? = none) :
    resizeOutcomes policy outcomes s = (outcomes, s) := by
  induction outcomes with
  | nil => rfl
  | cons o outcomes ih =>
    have hone : resizeOutcome policy o s = (o, s) := by rw [resizeOutcome, h o List.mem_cons_self]; rfl
    rw [resizeOutcomes, stateBind_eq hone, stateBind_eq (ih fun x hx => h x (List.mem_cons_of_mem _ hx))]
    rfl

theorem multibuffer_eq {outcomes outcomes' : List SiteResult} {s₁ s₂ : State}
    (hexpand : expandSites policy (survey s).1.sites (survey s).2 = (outcomes, s₁))
    (hresize : resizeOutcomes policy outcomes s₁ = (outcomes', s₂)) :
    ∃ history, multibuffer policy s =
      (conclude policy s₂.kernel.name history outcomes' (survey s).1.orphans, s₂) := by
  have hsurvey : survey s = ((survey s).1, (survey s).2) := rfl
  rw [multibuffer, stateBind_eq hsurvey, stateBind_eq hexpand]
  by_cases hpending : outcomes.any fun o => o.pending?.isSome
  · rw [if_pos hpending, stateBind_eq hresize]
    exact ⟨_, rfl⟩
  · rw [if_neg hpending]
    have hnone : ∀ o ∈ outcomes, o.pending? = none := by
      intro o ho
      by_contra hsome
      exact hpending (List.any_eq_true.mpr ⟨o, ho, Option.isSome_iff_ne_none.mpr hsome⟩)
    rw [resizeOutcomes_of_none hnone] at hresize
    cases hresize
    exact ⟨_, rfl⟩

theorem exists_run (policy : Policy) (s : State) : ∃ outcomes s₁ outcomes' s₂ history,
    expandSites policy (survey s).1.sites (survey s).2 = (outcomes, s₁) ∧
      resizeOutcomes policy outcomes s₁ = (outcomes', s₂) ∧
      multibuffer policy s = (conclude policy s₂.kernel.name history outcomes' (survey s).1.orphans, s₂) := by
  obtain ⟨outcomes, s₁, hexpand⟩ :
      ∃ outcomes s₁, expandSites policy (survey s).1.sites (survey s).2 = (outcomes, s₁) :=
    ⟨_, _, rfl⟩
  obtain ⟨outcomes', s₂, hresize⟩ : ∃ outcomes' s₂, resizeOutcomes policy outcomes s₁ = (outcomes', s₂) :=
    ⟨_, _, rfl⟩
  obtain ⟨history, heq⟩ := multibuffer_eq hexpand hresize
  exact ⟨outcomes, s₁, outcomes', s₂, history, hexpand, hresize, heq⟩

/-- An invariant of the expansions, and one of the resizings that it leads to, hold at the end of a run. Invariants
of states can be about the log besides the kernel. -/
theorem multibuffer_state_induction (Inv : State → Forest → List SiteResult → List Site → Prop)
    (Inv' : State → Forest → List SiteResult → List SiteResult → Prop) {F₀ : Forest}
    (hF₀ : Carries (survey s).2.kernel F₀ (survey s).1.sites [])
    (hstart : Inv (survey s).2 F₀ [] (survey s).1.sites)
    (hexpand : ∀ {s₁ F done site todo o s₂ F'}, Upholds policy (survey s).1.sites s₁.kernel F (setsOf done) →
      site ∈ (survey s).1.sites → Inv s₁ F done (site :: todo) → expandSite policy site s₁ = (o, s₂) →
      ExpandStep policy site s₁.kernel F o s₂.kernel F' →
      Upholds policy (survey s).1.sites s₂.kernel F' (setsOf (done ++ [o])) → Inv s₂ F' (done ++ [o]) todo)
    (hturn : ∀ {s₁ F outcomes}, Upholds policy (survey s).1.sites s₁.kernel F (setsOf outcomes) →
      Inv s₁ F outcomes [] → Inv' s₁ F [] outcomes)
    (hresize : ∀ {s₁ F done o todo o' s₂ F'},
      Upholds policy (survey s).1.sites s₁.kernel F (setsOf (done ++ o :: todo)) →
      Inv' s₁ F done (o :: todo) → resizeOutcome policy o s₁ = (o', s₂) →
      ResizeStep policy o s₁.kernel F o' s₂.kernel F' →
      Upholds policy (survey s).1.sites s₂.kernel F' (setsOf (done ++ o' :: todo)) →
      Inv' s₂ F' (done ++ [o']) todo) :
    ∃ history outcomes s' F', multibuffer policy s =
        (conclude policy s'.kernel.name history outcomes (survey s).1.orphans, s') ∧
      Upholds policy (survey s).1.sites s'.kernel F' (setsOf outcomes) ∧ Inv' s' F' outcomes [] := by
  have hbase : Upholds policy (survey s).1.sites (survey s).2.kernel F₀ (setsOf []) := ⟨hF₀, by simp [setsOf]⟩
  obtain ⟨outcomes, s₁, F₁, hrun, h₁, hinv₁⟩ := expandSites_induction hexpand (fun _ h => h) hbase hstart
  rw [List.nil_append] at hinv₁
  obtain ⟨outcomes', s₂, F₂, hrun', h₂, hinv₂⟩ := resizeOutcomes_induction hresize h₁ (hturn h₁ hinv₁)
  rw [List.nil_append] at h₂ hinv₂
  obtain ⟨history, heq⟩ := multibuffer_eq hrun hrun'
  exact ⟨history, outcomes', s₂, F₂, heq, h₂, hinv₂⟩

theorem multibuffer_induction (Inv : Kernel → Forest → List SiteResult → List Site → Prop)
    (Inv' : Kernel → Forest → List SiteResult → List SiteResult → Prop) {F₀ : Forest}
    (hF₀ : Carries (survey s).2.kernel F₀ (survey s).1.sites [])
    (hstart : Inv (survey s).2.kernel F₀ [] (survey s).1.sites)
    (hexpand : ∀ {k F done site todo o k' F'}, Upholds policy (survey s).1.sites k F (setsOf done) →
      site ∈ (survey s).1.sites → Inv k F done (site :: todo) → ExpandStep policy site k F o k' F' →
      Upholds policy (survey s).1.sites k' F' (setsOf (done ++ [o])) → Inv k' F' (done ++ [o]) todo)
    (hturn : ∀ {k F outcomes}, Upholds policy (survey s).1.sites k F (setsOf outcomes) → Inv k F outcomes [] →
      Inv' k F [] outcomes)
    (hresize : ∀ {k F done o todo o' k' F'}, Upholds policy (survey s).1.sites k F (setsOf (done ++ o :: todo)) →
      Inv' k F done (o :: todo) → ResizeStep policy o k F o' k' F' →
      Upholds policy (survey s).1.sites k' F' (setsOf (done ++ o' :: todo)) → Inv' k' F' (done ++ [o']) todo) :
    ∃ history outcomes s' F', multibuffer policy s =
        (conclude policy s'.kernel.name history outcomes (survey s).1.orphans, s') ∧
      Upholds policy (survey s).1.sites s'.kernel F' (setsOf outcomes) ∧ Inv' s'.kernel F' outcomes [] :=
  multibuffer_state_induction (fun s => Inv s.kernel) (fun s => Inv' s.kernel) hF₀ hstart
    (fun h hsite hinv _ => hexpand h hsite hinv) hturn (fun h hinv _ => hresize h hinv)

theorem multibuffer_upholds (s : State) (hF : Stores s.kernel F) (hv : s.kernel.verify = .ok ())
    (hbounds : s.kernel.PlainBounds) (policy : Policy) :
    ∃ F', Upholds policy (survey s).1.sites (multibuffer policy s).2.kernel F' (multibuffer policy s).1.sets := by
  obtain ⟨history, outcomes, s', F', heq, hupholds, -⟩ :=
    multibuffer_induction (fun _ _ _ _ => True) (fun _ _ _ _ => True) (hF.survey hv hbounds) trivial
      (fun _ _ _ _ _ => trivial) (fun _ _ => trivial) (fun _ _ _ _ => trivial)
  rw [heq]
  exact ⟨F', hupholds⟩

/-- Whatever became of the sites, the kernel is accepted again. -/
theorem multibuffer_verify {name : String} {location : Location} {stmts : List Stmt} (s : State)
    (hs : s.kernel = build name location stmts) (hv : s.kernel.verify = .ok ()) (hbounds : s.kernel.PlainBounds)
    (policy : Policy) : (multibuffer policy s).2.kernel.verify = .ok () := by
  obtain ⟨F, hF⟩ := build_stores name location stmts
  obtain ⟨F', hupholds⟩ := multibuffer_upholds s (hs ▸ hF) hv hbounds policy
  exact hupholds.carries.stores.verify_eq_ok_iff.mpr hupholds.carries.visible

theorem multibuffer_verify_tilePair :
    (multibuffer {} { kernel := build "pair" .unknown Stmt.tilePair, pass := "slots" }).2.kernel.verify = .ok () :=
  multibuffer_verify _ rfl (by decide +kernel) (by decide +kernel) {}

/-- The guard of every set is there exactly if it is needed, and it then leads the loop. -/
theorem multibuffer_guards {name : String} {location : Location} {stmts : List Stmt} (s : State)
    (hs : s.kernel = build name location stmts) (hv : s.kernel.verify = .ok ()) (hbounds : s.kernel.PlainBounds)
    (policy : Policy) :
    ∀ set ∈ (multibuffer policy s).1.sets,
      (set.guard.isSome ↔ policy.needsGuard (multibuffer policy s).2.kernel set.ty set.loop set.factor) ∧
        ∀ g, set.guard = some g → set.LedBy (multibuffer policy s).2.kernel g.op := by
  obtain ⟨F, hF⟩ := build_stores name location stmts
  obtain ⟨F', hupholds⟩ := multibuffer_upholds s (hs ▸ hF) hv hbounds policy
  intro set hset
  obtain ⟨hneeds, hleads⟩ := hupholds.guarded set hset
  refine ⟨by rw [hneeds]; rfl, fun g hg => ?_⟩
  exact (hupholds.carries.in_place set hset).fits.ledBy hupholds.carries.stores hupholds.carries.visible
    (hleads g hg)

theorem multibuffer_guards_tilePair :
    let run := multibuffer { defaultDepth := 2 } { kernel := build "pair" .unknown Stmt.tilePair, pass := "slots" }
    (run.1.sets.map fun set => (set.factor, set.guard.isSome)) = [(2, true), (3, false)] ∧ ∀ set ∈ run.1.sets,
      (set.guard.isSome ↔ Policy.needsGuard { defaultDepth := 2 } run.2.kernel set.ty set.loop set.factor) ∧
        ∀ g, set.guard = some g → set.LedBy run.2.kernel g.op :=
  ⟨by decide +kernel, multibuffer_guards _ rfl (by decide +kernel) (by decide +kernel) { defaultDepth := 2 }⟩

end Transform
end SlotRotation
