import SlotRotation.Proofs.Multibuffer

/-! What becomes of the barriers that guards put in. The set that a barrier was put in for takes it out again when
no set of the loop needs it; a set that found it there does not. So a barrier can outlive its need only where two
sets of one loop gave up their guards. -/

namespace SlotRotation

def Instr.isSelect : Instr → Bool
  | .selectSlot .. => true
  | _ => false

theorem Instr.isSelect_mapOperands (f : Nat → ValueId → ValueId) (i : Instr) :
    (i.mapOperands f).isSelect = i.isSelect := by
  cases i <;> rfl

theorem Instr.isSelect_stripped (i : Instr) : i.stripped.isSelect = i.isSelect := by cases i <;> rfl

theorem Instr.eq_barrier_of_mapOperands {f : Nat → ValueId → ValueId} {i : Instr} (h : i.mapOperands f = .barrier) :
    i = .barrier := by
  cases i with
  | barrier => rfl
  | _ => cases h

namespace Kernel

variable {k k' : Kernel} {F : Forest}

def Claimed (F : Forest) (sets : List SlotSet) : Prop :=
  ∀ n ∈ F.nodes, n.2.isSelect → ∃ set ∈ sets, set.selector = n.1

section Installs

variable {E : Exchange F} {P : Footprint} {set : SlotSet} {l : Loop} {guard rot : List Node}
  (h : Installs k k' E P set l guard rot) (hS : Stores k F)
include h hS

theorem Installs.barrier_cases {g : OpId} (hg : (g, .barrier) ∈ E.result.nodes) :
    (g, .barrier) ∈ guard ∨ (g, .barrier) ∈ F.nodes := by
  rcases (Exchange.mem_nodes_result hS.plain hS.nodup).mp hg with ⟨e, he, hmem⟩ | hmem | ⟨n, hn, -, heq⟩
  · rcases h.yields.table_cases e he _ hmem with halloc | ⟨ops, -, hrelease⟩
    · obtain ⟨slot, -, heq⟩ := SlotSet.mem_allocNodes.mp halloc
      cases congrArg Prod.snd heq
    · obtain ⟨_, _, -, -, heq⟩ := SlotSet.mem_releaseNodes.mp hrelease
      cases heq
  · rw [h.yields.entry] at hmem
    rcases List.mem_append.mp hmem with hmem | hmem
    · exact (List.mem_append.mp hmem).imp id fun hrot => absurd rfl (h.yields.computes.no_barrier _ hrot)
    · cases congrArg Prod.snd (List.mem_singleton.mp hmem)
  · have hrenamed : n.2.mapOperands (fun _ => E.rename) = .barrier := (congrArg Prod.snd heq).symm
    have hinstr := Instr.eq_barrier_of_mapOperands hrenamed
    have hid : g = n.1 := congrArg Prod.fst heq
    rw [hid, ← hinstr]
    exact Or.inr hn

theorem Installs.select_cases {n : Node} (hn : n ∈ E.result.nodes) (hselect : n.2.isSelect) :
    n.1 = set.selector ∨ (n.1 ∉ P.ids ∧ ∃ m ∈ F.nodes, m.1 = n.1 ∧ m.2.isSelect) := by
  rcases (Exchange.mem_nodes_result hS.plain hS.nodup).mp hn with ⟨e, he, hmem⟩ | hmem | ⟨m, hm, hkey, rfl⟩
  · rcases h.yields.table_cases e he _ hmem with halloc | ⟨ops, -, hrelease⟩
    · obtain ⟨slot, -, rfl⟩ := SlotSet.mem_allocNodes.mp halloc
      cases hselect
    · obtain ⟨_, _, -, -, heq⟩ := SlotSet.mem_releaseNodes.mp hrelease
      rw [heq] at hselect
      cases hselect
  · rw [h.yields.entry] at hmem
    rcases List.mem_append.mp hmem with hmem | hmem
    · rcases List.mem_append.mp hmem with hguard | hrot
      · rw [h.yields.guarded n hguard] at hselect
        cases hselect
      · rcases h.rotates.mem_cases hrot with ⟨_, _, heq⟩ | ⟨_, _, _, _, heq⟩ <;>
          rw [heq] at hselect <;> cases hselect
    · exact Or.inl (congrArg Prod.fst (List.mem_singleton.mp hmem))
  · rw [h.replaces.keys] at hkey
    exact Or.inr ⟨hkey, m, hm, rfl, (Instr.isSelect_mapOperands (fun _ => E.rename) m.2).symm.trans hselect⟩

end Installs

theorem Upholds.exists_other {policy : Policy} {sites : List Site} {sets : List SlotSet}
    (h : Upholds policy sites k F sets) (hclaimed : Claimed F sets) {a selector : OpId}
    (hother : k.otherNeedsGuard policy a selector = true) :
    ∃ set ∈ sets, set.selector ≠ selector ∧ set.loop = a ∧ ∃ g, set.guard = some g := by
  have hS := h.carries.stores
  unfold otherNeedsGuard at hother
  split at hother
  · cases hother
  · rename_i l hl
    obtain ⟨⟨ty, n⟩, hmem, hneeds⟩ := List.any_eq_true.mp hother
    obtain ⟨x, hx, hselection⟩ := List.mem_filterMap.mp hmem
    obtain ⟨hx, hne⟩ := List.mem_filter.mp hx
    unfold selection? at hselection
    split at hselection
    · rename_i result slots index hinstr
      have hnode := hS.mem_nodes_iff.mpr hinstr
      obtain ⟨set, hset, heq⟩ := hclaimed _ hnode rfl
      have hstands := h.carries.in_place set hset
      change set.selector = x at heq
      have hselect : set.selectNode.2 = .selectSlot result slots index := by
        refine Forest.node_unique hS.nodup ?_ (heq ▸ hnode)
        exact hstands.fits.selects
      cases hselect
      rw [hstands.typed] at hselection
      cases hselection
      obtain ⟨B, hB⟩ := Forest.exists_holds hS.plain (hS.loop?_eq_some_iff.mp hl)
      rw [(hS.placed.holds hB).1, ← heq] at hx
      have hloop : set.loop = a := hS.child_unique (hstands.fits.inside _ List.mem_cons_self) ⟨l, B, hB, hx⟩
      refine ⟨set, hset, by simpa [heq] using hne, hloop, ?_⟩
      have hguard := (h.guarded set hset).1
      rw [hloop] at hguard
      rw [SlotSet.slotValues, List.length_map] at hneeds
      exact Option.isSome_iff_exists.mp (hguard.trans hneeds)
    · cases hselection

end Kernel

/-- The site was resized from a slot count that needs a guard in the loop `a` to one that needs none. -/
def SiteResult.GivesUp (o : SiteResult) (policy : Policy) (k : Kernel) (a : OpId) : Prop :=
  ∃ before set, o.status = .resized before set ∧ set.loop = a ∧ policy.needsGuard k set.ty a before = true ∧
    policy.needsGuard k set.ty a set.factor = false

theorem SiteResult.GivesUp.congr {o : SiteResult} {policy : Policy} {k k' : Kernel} {a : OpId}
    (h : o.GivesUp policy k a) (hneeds : ∀ ty n, policy.needsGuard k' ty a n = policy.needsGuard k ty a n) :
    o.GivesUp policy k' a := by
  obtain ⟨before, set, hstatus, hloop, hbefore, hafter⟩ := h
  exact ⟨before, set, hstatus, hloop, (hneeds _ _).trans hbefore, (hneeds _ _).trans hafter⟩

namespace Kernel

open SiteResult

variable {policy : Policy} {sites : List Site} {sets sets' : List SlotSet} {set set' : SlotSet} {k k' k₀ : Kernel}
  {F F' F₀ : Forest} {done done' : List SiteResult} {o o' : SiteResult} {g : OpId}

/-- Why a barrier that was put in is still there: the set it was put in for has it, or another set of the loop has it
after that one gave it up, or both gave it up. -/
inductive Accounted (policy : Policy) (k : Kernel) (F : Forest) (sets : List SlotSet) (done : List SiteResult)
    (g : OpId) : Prop
  | owned {set : SlotSet} : set ∈ sets → set.guard = some ⟨g, true⟩ → Accounted policy k F sets done g
  | found {set : SlotSet} {guard : Guard} {o : SiteResult} : set ∈ sets → set.guard = some guard → guard.op = g →
    o ∈ done → o.GivesUp policy k set.loop → Accounted policy k F sets done g
  | left {a : OpId} {o₁ o₂ : SiteResult} : F.Leads a g → [o₁, o₂].Sublist done → o₁.GivesUp policy k a →
    o₂.GivesUp policy k a → Accounted policy k F sets done g

theorem Accounted.mono (h : Accounted policy k F sets done g) (hsets : ∀ set ∈ sets, set ∈ sets')
    (hdone : done.Sublist done') (hleads : ∀ a, F.Leads a g → F'.Leads a g)
    (hneeds : ∀ ty a n, policy.needsGuard k' ty a n = policy.needsGuard k ty a n) :
    Accounted policy k' F' sets' done' g := by
  have hcongr : ∀ {o : SiteResult} {a}, o.GivesUp policy k a → o.GivesUp policy k' a := fun hgives =>
    hgives.congr fun ty n => hneeds ty _ n
  cases h with
  | owned hset hguard => exact .owned (hsets _ hset) hguard
  | found hset hguard hop ho hgives => exact .found (hsets _ hset) hguard hop (hdone.mem ho) (hcongr hgives)
  | left hlead hpair h₁ h₂ => exact .left (hleads _ hlead) (hpair.trans hdone) (hcongr h₁) (hcongr h₂)

theorem Clears.leads {n : Nat} (h : Clears policy set n k k₀ F F₀) (hS : Stores k F) {a : OpId}
    (hg : (g, .barrier) ∈ F₀.nodes) (hlead : F.Leads a g) : F₀.Leads a g := by
  rcases h with ⟨-, rfl⟩ | ⟨g', -, hg', -, -, rfl, -⟩
  · exact hlead
  · refine hlead.dropping fun heq => ?_
    rw [heq] at hg
    exact Forest.notMem_dropping hS.plain hS.nodup hg' rfl (List.mem_singleton_self _)
      (Forest.mem_ids_of_mem_nodes hg)

theorem Upholds.givesUp (h : Upholds policy sites k F sets) {guard : Guard} (hset : set ∈ sets)
    (hguard : set.guard = some guard) (hty : set'.ty = set.ty) (hloop : set'.loop = set.loop)
    (hneeds : policy.needsGuard k set.ty set.loop set'.slots.length = false)
    (ho : o.status = .resized set.factor set') : o.GivesUp policy k set.loop := by
  have hbefore := (h.guarded set hset).1
  rw [hguard] at hbefore
  refine ⟨_, set', ho, hloop, ?_, ?_⟩
  · rw [hty]
    exact hbefore.symm
  · rw [hty]
    exact hneeds

/-- A barrier that outlasts the resizing of a set is accounted for: the set keeps it, or it gives it up and what is
left of the account holds. -/
theorem Accounted.resized {before after : List SlotSet} {target : Nat}
    (h : Upholds policy sites k F (before ++ set :: after)) (hclaimed : Claimed F (before ++ set :: after))
    (hty : set'.ty = set.ty) (hloop : set'.loop = set.loop) (hlength : set'.slots.length = target) {ns : List Node}
    (hrenews : Renews policy set target k F₀ set'.guard ns) (hkept : (g, .barrier) ∈ F₀.nodes)
    (ho : o.status = .resized set.factor set') (hg : Accounted policy k F (before ++ set :: after) done g) :
    Accounted policy k F (before ++ set' :: after) (done ++ [o]) g := by
  have hcases : ∀ {t}, t ∈ before ++ set :: after → t = set ∨ t ∈ before ++ set' :: after := by
    intro t ht
    rcases List.mem_append.mp ht with ht | ht
    · exact Or.inr (List.mem_append_left _ ht)
    · exact (List.mem_cons.mp ht).imp id fun ht => List.mem_append_right _ (List.mem_cons_of_mem _ ht)
  have hset : set ∈ before ++ set :: after := List.mem_append_right _ List.mem_cons_self
  have hset' : set' ∈ before ++ set' :: after := List.mem_append_right _ List.mem_cons_self
  have hmem : o ∈ done ++ [o] := List.mem_append_right _ (List.mem_singleton_self _)
  have hgives : ∀ guard, set.guard = some guard → policy.needsGuard k set.ty set.loop target = false →
      o.GivesUp policy k set.loop := fun guard hguard hfalse =>
    h.givesUp hset hguard hty hloop (hlength ▸ hfalse) ho
  cases hg with
  | @owned t ht hguard =>
    rcases hcases ht with rfl | ht
    · cases hneed : policy.needsGuard k t.ty t.loop target with
      | true => exact .owned hset' (hrenews.kept hneed _ hguard)
      | false =>
        -- it was not taken out, so another set of the loop has it
        have hother : k.otherNeedsGuard policy t.loop t.selector = true := by
          by_contra hno
          exact hrenews.dropped hneed _ hguard rfl (Bool.eq_false_iff.mpr hno) (Forest.mem_ids_of_mem_nodes hkept)
        obtain ⟨u, hu, hne, huloop, guard, huguard⟩ := h.exists_other hclaimed hother
        have hu' := (hcases hu).resolve_left fun heq => hne (heq ▸ rfl)
        have hlead := (h.guarded u hu).2 guard huguard
        rw [huloop] at hlead
        have hop : guard.op = g := hlead.unique ((h.guarded t hset).2 _ hguard) h.carries.stores.nodup
        exact .found hu' huguard hop hmem (huloop ▸ hgives _ hguard hneed)
    · exact .owned ht hguard
  | @found t guard o₁ ht hguard hop ho₁ hgave =>
    rcases hcases ht with rfl | ht
    · cases hneed : policy.needsGuard k t.ty t.loop target with
      | true => exact .found hset' (hrenews.kept hneed _ hguard) hop (List.mem_append_left _ ho₁) (hloop ▸ hgave)
      | false =>
        have hpair : [o₁, o].Sublist (done ++ [o]) := (List.singleton_sublist.mpr ho₁).append (List.Sublist.refl [o])
        exact .left (hop ▸ (h.guarded t hset).2 _ hguard) hpair hgave (hgives _ hguard hneed)
    · exact .found ht hguard hop (List.mem_append_left _ ho₁) hgave
  | left hlead hpair h₁ h₂ => exact .left hlead (hpair.trans (List.sublist_append_left ..)) h₁ h₂

/-- Every selector is that of a set, and every barrier that is not in `F₀` is accounted for. -/
structure Settles (policy : Policy) (F₀ : Forest) (k : Kernel) (F : Forest) (sets : List SlotSet)
    (done : List SiteResult) : Prop where
  claimed : Claimed F sets
  accounted : ∀ g, (g, .barrier) ∈ F.nodes → (g, .barrier) ∉ F₀.nodes → Accounted policy k F sets done g

theorem Settles.expand {site : Site} (h : Upholds policy sites k F (setsOf done))
    (hinv : Settles policy F₀ k F (setsOf done) []) (hstep : ExpandStep policy site k F o k' F') :
    Settles policy F₀ k' F' (setsOf (done ++ [o])) [] := by
  have hS := h.carries.stores
  rw [setsOf_append]
  cases hstep with
  | refused herr => exact (List.append_nil (setsOf done)).symm ▸ hinv
  | @expanded e a l set k' E guard rot he hcount hinstalls hinserted =>
    refine ⟨fun n hn hselect => ?_, fun g hg hnew => ?_⟩
    · rcases hinstalls.select_cases hS hn hselect with heq | ⟨-, m, hm, heq, hm'⟩
      · exact ⟨set, List.mem_append_right _ (List.mem_singleton_self _), heq.symm⟩
      · obtain ⟨t, ht, hsel⟩ := hinv.claimed m hm hm'
        exact ⟨t, List.mem_append_left _ ht, hsel.trans heq⟩
    · rcases hinstalls.barrier_cases hS hg with hguard | hold
      · exact .owned (List.mem_append_right _ (List.mem_singleton_self _)) (hinserted _ hguard)
      · exact (hinv.accounted g hold hnew).mono (fun t ht => List.mem_append_left _ ht) (List.Sublist.refl _)
          (fun _ hlead => hinstalls.leads hS hlead) fun ty a n => hinstalls.needs policy ty a n

theorem Settles.resize {todo : List SiteResult} (h : Upholds policy sites k F (setsOf (done ++ o :: todo)))
    (hinv : Settles policy F₀ k F (setsOf (done ++ o :: todo)) done) (hstep : ResizeStep policy o k F o' k' F') :
    Settles policy F₀ k' F' (setsOf (done ++ o' :: todo)) (done ++ [o']) := by
  have hS := h.carries.stores
  have hsame : Settles policy F₀ k F (setsOf (done ++ o :: todo)) (done ++ [o']) :=
    ⟨hinv.claimed, fun g hg hnew => (hinv.accounted g hg hnew).mono (fun _ ht => ht) (List.sublist_append_left ..)
      (fun _ hlead => hlead) fun _ _ _ => rfl⟩
  cases hstep with
  | kept hnone => exact hsame
  | @refused set factor err hpending herr =>
    obtain ⟨hstatus, -⟩ := pending?_eq_some_iff.mp hpending
    have hset : o.set? = some set := by rw [set?, hstatus]
    rw [setsOf_middle hset] at hsame
    rw [setsOf_middle rfl]
    exact hsame
  | @resized set set' factor target k₀ k' F₁ l ns guard rot E hpending hasked hlength hty hloop hclears hinstalls
      hrenews =>
    obtain ⟨hstatus, -⟩ := pending?_eq_some_iff.mp hpending
    have hset : o.set? = some set := by rw [set?, hstatus]
    rw [setsOf_middle hset] at h hinv
    rw [setsOf_middle rfl]
    have hS₁ := hclears.stores hS
    have hset' : set' ∈ setsOf done ++ set' :: setsOf todo := List.mem_append_right _ List.mem_cons_self
    refine ⟨fun n hn hselect => ?_, fun g hg hnew => ?_⟩
    · rcases hinstalls.select_cases hS₁ hn hselect with heq | ⟨hout, m, hm, heq, hm'⟩
      · exact ⟨set', hset', heq.symm⟩
      · obtain ⟨t, ht, hsel⟩ := hinv.claimed m (hclears.mem_of_mem hS hm) hm'
        -- the selector that was there is gone
        have hne : t ≠ set := by
          rintro rfl
          refine hout (List.mem_map.mpr ⟨t.selectNode, ?_, hsel.trans heq⟩)
          exact Footprint.mem_nodes.mpr (Or.inr (Or.inr List.mem_cons_self))
        have ht' : t ∈ setsOf done ++ set' :: setsOf todo := by
          rw [List.mem_append, List.mem_cons] at ht ⊢
          exact ht.imp_right fun ht => Or.inr (ht.resolve_left hne)
        exact ⟨t, ht', hsel.trans heq⟩
    · rcases hinstalls.barrier_cases hS₁ hg with hguard | hkept
      · exact .owned hset' (hrenews.inserted _ hguard)
      · have hold := hinv.accounted g (hclears.mem_of_mem hS hkept) hnew
        refine (Accounted.resized h hinv.claimed hty hloop hlength hrenews hkept rfl hold).mono (fun _ ht => ht)
          (List.Sublist.refl _) (fun _ hlead => hinstalls.leads hS₁ (hclears.leads hS hkept hlead)) fun ty a n => ?_
        exact (hinstalls.needs policy ty a n).trans (hclears.needsGuard_eq hS policy ty a n)

def SelectFree (k : Kernel) : Prop := ∀ x op, k.op? x = some op → op.instr.isSelect = false

theorem SelectFree.append (h : k.SelectFree) {i : Instr} (hi : i.isSelect = false) (r : RegionId) :
    (k.append i r).SelectFree := by
  intro x op hop
  rw [op?_append] at hop
  split at hop
  · cases hop
    exact hi
  · exact h x op hop

mutual

theorem emit_selectFree (r : RegionId) : ∀ (stmt : Stmt) {k : Kernel}, k.SelectFree → (emit r stmt k).1.SelectFree
  | .constant .., k, h => SelectFree.append (k := k.addValue _) h rfl r
  | .arith .., k, h => SelectFree.append (k := k.addValue _) h rfl r
  | .alloc .., k, h => SelectFree.append (k := k.addValue _) h rfl r
  | .load .., k, h => SelectFree.append (k := k.addValue _) h rfl r
  | .dealloc _, _, h => h.append rfl r
  | .store .., _, h => h.append rfl r
  | .fill .., _, h => h.append rfl r
  | .copy .., _, h => h.append rfl r
  | .compute .., _, h => h.append rfl r
  | .barrier, _, h => h.append rfl r
  | .ret, _, h => h.append rfl r
  | .loop _ _ _ _ stmts, k, h =>
    ((emitAll_selectFree ⟨k.regions.size⟩ stmts (k := k.addRegion.addValue .index) h).append rfl _).append rfl r

theorem emitAll_selectFree (r : RegionId) : ∀ (stmts : List Stmt) {k : Kernel}, k.SelectFree →
    (emitAll r stmts k).1.SelectFree
  | [], _, h => h
  | stmt :: stmts, _, h => emitAll_selectFree r stmts (emit_selectFree r stmt h)

end

theorem build_selectFree (name : String) (location : Location) (stmts : List Stmt) :
    (build name location stmts).SelectFree := by
  refine emitAll_selectFree body stmts fun x op hop => ?_
  simp [op?] at hop

theorem Stores.settles (h : Stores k F) (hfree : k.SelectFree) (policy : Policy) (ids : List OpId) (k' : Kernel) :
    Settles policy (F.rewrite (.stripping ids)) k' (F.rewrite (.stripping ids)) [] [] := by
  refine ⟨fun n hn hselect => ?_, fun g hg hnew => absurd hg hnew⟩
  obtain ⟨i, hi, heq⟩ := (Forest.mem_stripping h.plain ids).mp hn
  obtain ⟨r, hop⟩ := h.placed.op? hi
  have hnone := hfree n.1 _ hop
  rw [heq] at hselect
  split at hselect
  · rw [Instr.isSelect_stripped] at hselect
    cases hselect.symm.trans hnone
  · cases hselect.symm.trans hnone

end Kernel

/-- The second tile is the lower bound of the loop that the first one is filled in. -/
def Stmt.tileBound : List Stmt :=
  [.alloc .tile (some 2) (some 4), .alloc .tile (some 3) (some 2), .constant 0, .constant 8, .constant 1,
    .loop ⟨2⟩ ⟨3⟩ ⟨4⟩ (some 2) [.loop ⟨1⟩ ⟨3⟩ ⟨4⟩ (some 2) [.fill ⟨0⟩ ⟨2⟩]]]

namespace Transform

open Kernel SiteResult

/-- A barrier that a run puts in and leaves is the guard of a set, unless two sets of its loop gave up their
guards. -/
theorem multibuffer_barriers {name : String} {location : Location} {stmts : List Stmt} (s : State)
    (hs : s.kernel = build name location stmts) (hv : s.kernel.verify = .ok ()) (hbounds : s.kernel.PlainBounds)
    (policy : Policy) {g : OpId} (hg : (multibuffer policy s).2.kernel.instr? g = some .barrier)
    (hnew : s.kernel.isLive g = false) :
    (∃ set ∈ (multibuffer policy s).1.sets, ∃ guard, set.guard = some guard ∧ guard.op = g) ∨
      ∃ a l o₁ o₂, (multibuffer policy s).2.kernel.loop? a = some l ∧
        ((multibuffer policy s).2.kernel.regionOps l.body).head? = some g ∧
        [o₁, o₂].Sublist (multibuffer policy s).1.outcomes ∧
        o₁.GivesUp policy (multibuffer policy s).2.kernel a ∧
        o₂.GivesUp policy (multibuffer policy s).2.kernel a := by
  obtain ⟨F, hF⟩ := build_stores name location stmts
  rw [← hs] at hF
  have hstart := hF.settles (hs ▸ build_selectFree name location stmts) policy s.kernel.preorder (survey s).2.kernel
  have hsame : ∀ (k : Kernel) (G : Forest) (done todo : List SiteResult) (o : SiteResult),
      Settles policy (F.rewrite (.stripping s.kernel.preorder)) k G (setsOf (done ++ o :: todo)) (done ++ [o]) →
      Settles policy (F.rewrite (.stripping s.kernel.preorder)) k G (setsOf (done ++ [o] ++ todo))
        (done ++ [o]) := by
    intro k G done todo o h
    rwa [List.append_assoc, List.singleton_append]
  obtain ⟨history, outcomes, s', F', heq, hupholds, hsettles⟩ := multibuffer_induction
    (fun k G done _ => Settles policy (F.rewrite (.stripping s.kernel.preorder)) k G (setsOf done) [])
    (fun k G done todo => Settles policy (F.rewrite (.stripping s.kernel.preorder)) k G (setsOf (done ++ todo)) done)
    (hF.survey hv hbounds) hstart (fun h _ hinv hstep _ => hinv.expand h hstep) (fun _ hinv => hinv)
    fun h hinv hstep _ => hsame _ _ _ _ _ (hinv.resize h hstep)
  rw [heq] at hg ⊢
  have hS := hupholds.carries.stores
  rw [List.append_nil] at hsettles
  have hold : (g, .barrier) ∉ (F.rewrite (.stripping s.kernel.preorder)).nodes := by
    intro hmem
    obtain ⟨i, hi, -⟩ := (Forest.mem_stripping hF.plain _).mp hmem
    rw [hF.isLive_iff.mpr (Forest.mem_ids_of_mem_nodes hi)] at hnew
    cases hnew
  cases hsettles.accounted g (hS.mem_nodes_iff.mpr hg) hold with
  | owned hset hguard => exact Or.inl ⟨_, hset, _, hguard, rfl⟩
  | found hset hguard hop _ _ => exact Or.inl ⟨_, hset, _, hguard, hop⟩
  | left hlead hpair h₁ h₂ =>
    obtain ⟨l, B, hB⟩ := hlead
    refine Or.inr ⟨_, l, _, _, hS.loop?_eq_some_iff.mpr hB.mem_nodes, ?_, hpair, h₁, h₂⟩
    change (s'.kernel.regionOps l.body).head? = some g
    rw [(hS.placed.holds hB).1]
    rfl

/-- The second tile found the barrier of the first one there and does not take it out. -/
theorem multibuffer_barriers_tilePair :
    let run := multibuffer {} { kernel := build "pair" .unknown Stmt.tilePair, pass := "slots" }
    run.2.kernel.instr? ⟨12⟩ = some .barrier ∧
      ((∃ set ∈ run.1.sets, ∃ guard, set.guard = some guard ∧ guard.op = ⟨12⟩) ∨
        ∃ a l o₁ o₂, run.2.kernel.loop? a = some l ∧ (run.2.kernel.regionOps l.body).head? = some ⟨12⟩ ∧
          [o₁, o₂].Sublist run.1.outcomes ∧ o₁.GivesUp {} run.2.kernel a ∧ o₂.GivesUp {} run.2.kernel a) := by
  have hg : (multibuffer {} { kernel := build "pair" .unknown Stmt.tilePair, pass := "slots" }).2.kernel.instr?
      ⟨12⟩ = some .barrier := by decide +kernel
  exact ⟨hg, multibuffer_barriers _ rfl (by decide +kernel) (by decide +kernel) {} hg (by decide +kernel)⟩

/-- A barrier that no set has as its guard is left behind: by two sets that gave it up, and by a set that was
refused other slots when the barrier was in. The index of the first set reads the second tile; it is remade with the
first set, and so the second set does not find it again. -/
theorem barriers_left_behind :
    let pair := multibuffer {} { kernel := build "pair" .unknown Stmt.tilePair, pass := "slots" }
    let late := multibuffer {} { kernel := build "late" .unknown Stmt.tileBound, pass := "slots" }
    (pair.2.kernel.instr? ⟨12⟩ = some .barrier ∧ (build "pair" .unknown Stmt.tilePair).isLive ⟨12⟩ = false ∧
      ∀ set ∈ pair.1.sets, set.guard = none) ∧
    late.2.kernel.instr? ⟨29⟩ = some .barrier ∧ (build "late" .unknown Stmt.tileBound).isLive ⟨29⟩ = false ∧
      (∀ set ∈ late.1.sets, set.guard = none) ∧
      late.1.outcomes.map SiteResult.error? = [none, some (.malformed (.deadOp ⟨13⟩ "late"))] := by
  decide +kernel

end Transform
end SlotRotation
