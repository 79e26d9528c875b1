import SlotRotation.Proofs.Accounting
import SlotRotation.Proofs.Consumption
import SlotRotation.Proofs.Housing

/-! Sets with ops that were erased by hand. A resizing looks for the loop and for the members of its set ahead of
anything else, and for the guard only if it is to go. Accesses it does not look for: those it needs only if the slots
are allocated anew, and by then the kernel is changed. -/

namespace SlotRotation

namespace Kernel

variable {N : Nat} {k k' : Kernel} {F : Forest} {x : OpId} {u : Unit}

theorem Stores.of_erase (h : Stores k F) (herase : Edit.erase x k = .ok u k') :
    Stores k' (F.prune x) ∧ k'.values = k.values ∧ ∀ y, k'.isLive y → k'.op? y = k.op? y := by
  unfold Edit.erase at herase
  split at herase
  · cases herase
  · rename_i op hop
    cases herase
    refine ⟨?_, values_remove .., fun y hlive => ?_⟩
    · apply h.of_subset (h.toArranges.remove (op?_of_getOp hop)) (size_ops_remove ..) (values_remove ..)
      intro n hn
      exact ⟨n.2, ((Forest.mem_nodes_prune h.nodup).mp hn).1, rfl⟩
    · unfold isLive at hlive
      rw [op?_remove] at hlive ⊢
      split
      · rename_i hmem
        rw [if_pos hmem] at hlive
        cases hlive
      · rfl

theorem Erased.swaps {gone new : List OpId} {f : Use → ValueId → ValueId} (h : k.Erased x)
    (hk : Swaps N gone new f k k') : k'.Erased x := by
  refine ⟨Nat.lt_of_lt_of_le h.1 hk.ops, ?_⟩
  by_cases hgone : x ∈ gone
  · exact (hk.erased x hgone).2
  · rw [hk.op?_of_lt h.1 hgone, h.2]
    rfl

theorem exists_op?_of_setOperand {operand : Nat} {value old : ValueId}
    (hrun : Edit.setOperand x operand value k = .ok old k') : ∃ op, k.op? x = some op := by
  unfold Edit.setOperand at hrun
  split at hrun
  · cases hrun
  · rename_i op hop
    exact ⟨op, op?_of_getOp hop⟩

end Kernel

namespace SlotSet

variable {set : SlotSet} {policy : Policy} {N n : Nat} {k k' : Kernel}

/-- What a resizing to `n` slots looks for is not all there: the loop, a member, or the barrier that was put there
for the set, if neither the set nor another one needs it any longer. -/
def Misses (set : SlotSet) (policy : Policy) (n : Nat) (k : Kernel) : Prop :=
  ¬(k.loop? set.loop).isSome ∨ (∃ x ∈ set.members, ¬k.isLive x) ∨
    ∃ x ∈ set.inserted, ¬k.isLive x ∧ policy.needsGuard k set.ty set.loop n = false ∧
      k.otherNeedsGuard policy set.loop set.selector = false

theorem Seated.of_not_misses (h : set.Seated N k) (hkeep : ∀ y, k'.isLive y → k'.op? y = k.op? y)
    (hmisses : ¬set.Misses policy n k') : set.Seated N k' := by
  unfold Misses at hmisses
  push Not at hmisses
  obtain ⟨hloop, hmembers, -⟩ := hmisses
  apply h.of_reading (f := fun _ v => v) (fun x hx => ?_) (fun _ _ hv => hv) hloop
  rw [hkeep x (hmembers x hx), Op.map_reading_id]

theorem checkIntact_cases (set : SlotSet) (k : Kernel) :
    set.checkIntact k = .ok () ∧ (k.loop? set.loop).isSome ∧ (∀ x ∈ set.members, k.isLive x) ∨
      ∃ fault, set.checkIntact k = .error (.malformed fault) := by
  unfold checkIntact checkLoop
  split
  · rename_i hloop
    unfold checkMembers
    split
    · exact Or.inr ⟨_, rfl⟩
    · rename_i hlive
      refine Or.inl ⟨rfl, hloop, fun x hx => ?_⟩
      simpa using List.find?_eq_none.mp hlive x hx
  · exact Or.inr ⟨_, rfl⟩

end SlotSet

namespace Transform

variable {policy : Policy} {set : SlotSet} {factor : Int64} {n : Nat} {s s' : State}

/-- Whatever is looked for and missing is noticed before anything is changed. -/
theorem resize_of_misses (h : set.Misses policy n s.kernel) (hinhabited : set.slots ≠ [])
    (hn : slotsAsked factor = .ok n) : ∃ fault, resize policy set factor s = .error (.malformed fault) s := by
  obtain ⟨last, -, hlast⟩ := SlotSet.exists_lastSlot hinhabited
  unfold resize
  rw [query_bind_ok hn, query_bind_ok hlast]
  rcases set.checkIntact_cases s.kernel with ⟨hintact, hloop, hmembers⟩ | ⟨fault, hfault⟩
  · rw [query_bind_ok hintact]
    -- then it is the barrier that is missing, and it is to go
    rcases h with hlost | ⟨x, hx, hdead⟩ | ⟨x, hx, hdead, hneeds, hother⟩
    · exact absurd hloop hlost
    · exact absurd (hmembers x hx) hdead
    · obtain ⟨g, hg, rfl⟩ := List.mem_map.mp hx
      obtain ⟨hguard, hinserted⟩ := Option.filter_eq_some_iff.mp (Option.mem_toList.mp hg)
      obtain ⟨fault, hfault⟩ := edit_erase_of_not_isLive hdead
      refine ⟨fault, bind_of_error ?_⟩
      rw [renewGuard_of_drop hneeds hguard hinserted hother]
      exact bind_of_error hfault
  · exact ⟨fault, query_bind_error hfault⟩

theorem setOperand_error {user : OpId} {operand : Nat} {value : ValueId} {err : Error}
    (h : edit (Edit.setOperand user operand value) s = .error err s') : ∃ fault, err = .malformed fault := by
  unfold edit Edit.setOperand Kernel.getOp at h
  cases hop : s.kernel.op? user with
  | none =>
    rw [hop] at h
    cases h
    exact ⟨_, rfl⟩
  | some op =>
    rw [hop] at h
    dsimp only at h
    cases hexchange : op.instr.exchange? operand value with
    | none =>
      rw [hexchange] at h
      cases h
      exact ⟨_, rfl⟩
    | some pair =>
      rw [hexchange] at h
      cases h

theorem rebindFrom_of_erased (old new : ValueId) {bindings : List Binding} {binding : Binding}
    (hmem : binding ∈ bindings) (h : s.kernel.Erased binding.use.user) :
    ∃ fault s', rebindFrom old new bindings s = .error (.malformed fault) s' := by
  induction bindings generalizing s with
  | nil => cases hmem
  | cons head bindings ih =>
    unfold rebindFrom
    dsimp only
    cases hset : edit (Edit.setOperand head.use.user head.use.operand new) s with
    | error err s₁ =>
      obtain ⟨fault, rfl⟩ := setOperand_error hset
      exact ⟨fault, s₁, bind_of_error hset⟩
    | ok found s₁ =>
      rw [bind_of_ok hset]
      split
      · have herased := h.descends ((lasts_gone.edit (lasts_gone.edits.setOperand ..)).ok hset)
        rcases List.mem_cons.mp hmem with rfl | hmem
        · obtain ⟨op, hop⟩ := Kernel.exists_op?_of_setOperand (edit_eq_ok hset).1
          cases h.2.symm.trans hop
        · exact ih (s := s₁.record _ _ _) hmem herased
      · exact ⟨_, s₁, rfl⟩

theorem Lasts.refit {Q : Kernel → Kernel → Prop} {R : State → State → Prop} (h : Lasts Q R) (set : SlotSet) (n : Nat)
    (last : Slot) (guard : Option Guard) (rotation : Rotation) (point : InsertPoint) :
    Leaves R (Transform.refit set n last guard rotation point) := by
  unfold Transform.refit
  split
  · exact h.bind (h.reallocate ..) fun _ => h.bind (h.edit (h.edits.eraseAll _)) fun _ => h.pure _
  · exact h.bind (h.regroup ..) fun _ => h.bind (h.edit (h.edits.eraseAll _)) fun _ => h.pure _

end Transform

namespace Kernel.Stores

variable {N n : Nat} {k : Kernel} {F : Forest} {set : SlotSet} {binding : Binding} {s : Transform.State}

theorem reallocate_of_erased {last : Slot} {x : OpId} (h : Stores k F) (index : ValueId)
    (hlast : k.Lodged N last.alloc) (hx : k.Lodged N x) (hmem : binding ∈ set.bindings)
    (herased : k.Erased binding.use.user) (hs : s.kernel = k) :
    ∃ fault s', Transform.reallocate set n last index (.after x) s = .error (.malformed fault) s' := by
  obtain ⟨slots, selector, selected, k₁, k₂, F₂, hrun₁, hrun₂, -, hswaps, -⟩ := h.swaps_anew hlast hx set.ty
    (fun ordinal => .inherited (ordinal % set.factor)) n index
  obtain ⟨s₁, hdoes₁, hs₁⟩ := Transform.does_edit hrun₁ s hs
  obtain ⟨s₂, hdoes₂, hs₂⟩ := Transform.does_edit hrun₂ s₁ hs₁
  have herased₂ : s₂.kernel.Erased binding.use.user := by
    rw [hs₂]
    exact herased.swaps hswaps
  obtain ⟨fault, s₃, hrebind⟩ := Transform.rebindFrom_of_erased set.selected selected hmem herased₂
  refine ⟨fault, s₃, ?_⟩
  unfold Transform.reallocate
  rw [bind_of_ok hdoes₁, bind_of_ok hdoes₂]
  exact bind_of_error hrebind

section

variable {policy : Policy} {factor : Int64} (h : Stores k F) (hset : set.Seated N k) (hn : slotsAsked factor = .ok n)
  (hguard : policy.needsGuard k set.ty set.loop n = false → k.otherNeedsGuard policy set.loop set.selector = false →
    ∀ x ∈ set.inserted, k.Lodged N x) (hs : s.kernel = k)
include h hset hn hguard hs

/-- A resizing of a set that is in place has changed the kernel before it can fail. -/
theorem kernel_ne_of_resize {err : Error} {s' : Transform.State}
    (hrun : Transform.resize policy set factor s = .error err s') : s'.kernel ≠ k := by
  obtain ⟨last, guard, rotation, gone, new, x, k₁, F₁, -, hx, -, hentry, -, hresize⟩ :=
    h.resize_eq_refit hset hn policy hguard
  obtain ⟨s₁, hs₁, hrefit⟩ := hresize s hs
  -- the new index is there
  obtain ⟨hle, hlodged⟩ := hentry.fresh x (List.mem_append_right _ hx)
  have hlt : k.ops.size < k₁.ops.size := Nat.lt_of_le_of_lt hle hlodged.index_lt
  have hleft := (Transform.lasts_gone.refit set n last guard rotation (.after x)).related s₁
  rw [← hrefit, hrun] at hleft
  have hsize : k₁.ops.size ≤ s'.kernel.ops.size := hs₁ ▸ hleft.size
  intro heq
  rw [heq] at hsize
  exact absurd hsize (Nat.not_le.mpr hlt)

theorem resize_of_erased_access (hchoose : Strategy.choose set.factor n = .reallocate)
    (hmem : binding ∈ set.bindings) (herased : k.Erased binding.use.user) :
    ∃ fault s', Transform.resize policy set factor s = .error (.malformed fault) s' := by
  obtain ⟨last, guard, rotation, gone, new, x, k₁, F₁, hlast, hx, hstores₁, hentry, hreguards, hresize⟩ :=
    h.resize_eq_refit hset hn policy hguard
  obtain ⟨s₁, hs₁, hrefit⟩ := hresize s hs
  have hset₁ := hset.reguards hreguards hentry
  obtain ⟨fault, s', hreallocate⟩ := hstores₁.reallocate_of_erased (n := n) rotation.value
    (hset₁.lodged _ (SlotSet.alloc_mem_members hlast)) (hentry.fresh x (List.mem_append_right _ hx)).2 hmem
    (herased.swaps hentry) hs₁
  refine ⟨fault, s', ?_⟩
  rw [hrefit]
  unfold Transform.refit
  rw [hchoose]
  exact bind_of_error hreallocate

end

end Kernel.Stores

namespace Transform

open Kernel in
/-- A set of which an op was erased, whatever was called before. If the resizing misses something that it looks for,
nothing is changed. If not, it goes through wherever slots can be kept; it fails where they cannot and an access was
erased; and where it fails, the kernel is changed. -/
theorem resize_after_erase {name : String} {location : Location} {stmts : List Stmt} (start : State)
    (hstart : start.kernel = build name location stmts) (hv : start.kernel.verify = .ok ()) {s : State}
    {sets : List SlotSet}
    (hcalls : Relation.ReflTransGen (Call (survey start).1.sites) ((survey start).2, []) (s, sets)) {set : SlotSet}
    (hset : set ∈ sets) {x : OpId} {broken : State} (herase : Edit.erase x s.kernel = .ok () broken.kernel)
    (policy : Policy) {factor : Int64} {n : Nat} (hn : 1 ≤ n) (hfactor : factor.toInt = n) :
    (x = set.loop ∨ x ∈ set.members ∨ x ∈ set.inserted ∧
        policy.needsGuard broken.kernel set.ty set.loop n = false ∧
        broken.kernel.otherNeedsGuard policy set.loop set.selector = false →
      set.Misses policy n broken.kernel) ∧
    (set.Misses policy n broken.kernel →
      ∃ fault, resize policy set factor broken = .error (.malformed fault) broken) ∧
    (¬set.Misses policy n broken.kernel →
      (n ∣ set.factor ∨ set.factor ∣ n → ∃ set' s', resize policy set factor broken = .ok set' s') ∧
      (¬(n ∣ set.factor ∨ set.factor ∣ n) → (∃ binding ∈ set.bindings, binding.use.user = x) →
        ∃ fault s', resize policy set factor broken = .error (.malformed fault) s') ∧
      ∀ err s', resize policy set factor broken = .error err s' → s'.kernel ≠ broken.kernel) := by
  obtain ⟨M, N, hawaits, hhouses⟩ := houses_of_calls hstart hv hcalls
  obtain ⟨F, hF⟩ := hawaits.grown
  have hseated := hhouses.seated set hset
  have hask := slotsAsked_of_toInt hfactor hn
  have herased := erased_of_erase herase
  have hdead : ¬broken.kernel.isLive x := by
    unfold Kernel.isLive
    rw [herased.2]
    exact Bool.false_ne_true
  obtain ⟨hstores, hvalues, hkeep⟩ := hF.toStores.of_erase herase
  refine ⟨?_, fun hmisses => resize_of_misses hmisses hseated.inhabited hask, fun hmisses => ?_⟩
  · rintro (rfl | hx | ⟨hx, hneeds, hother⟩)
    · refine Or.inl fun hloop => ?_
      obtain ⟨op, hop⟩ := exists_op?_of_loop? hloop
      cases herased.2.symm.trans hop
    · exact Or.inr (Or.inl ⟨x, hx, hdead⟩)
    · exact Or.inr (Or.inr ⟨x, hx, hdead, hneeds, hother⟩)
  · have hseated' := hseated.of_not_misses hkeep hmisses
    have hN : N ≤ broken.kernel.values.size := by
      rw [hvalues]
      exact hF.values_le
    have hguard : policy.needsGuard broken.kernel set.ty set.loop n = false →
        broken.kernel.otherNeedsGuard policy set.loop set.selector = false →
        ∀ y ∈ set.inserted, broken.kernel.Lodged N y := by
      intro hneeds hother y hy
      apply (hhouses.guarded set hset y hy).of_op?
      apply hkeep
      by_contra hlost
      exact hmisses (Or.inr (Or.inr ⟨y, hy, hlost, hneeds, hother⟩))
    refine ⟨fun hdvd => ?_, ?_, fun err s' => hstores.kernel_ne_of_resize hseated' hask hguard rfl⟩
    · obtain ⟨set', k', -, hdoes, -⟩ := hstores.refitted_of_regroup policy hseated' hN hask hguard fun hchoose =>
        Strategy.choose_eq_reallocate_iff.mp hchoose hdvd
      obtain ⟨s', hrun, -⟩ := hdoes broken rfl
      exact ⟨set', s', hrun⟩
    · rintro hdvd ⟨binding, hmem, rfl⟩
      exact hstores.resize_of_erased_access hseated' hask hguard rfl
        (Strategy.choose_eq_reallocate_iff.mpr hdvd) hmem herased

/-- The fill of a tile is erased while the tile has two slots: it cannot be given three any longer, but four. -/
theorem erased_fill_tilePair {start : State}
    (hstart : start = { kernel := Kernel.build "pair" .unknown Stmt.tilePair, pass := "slots" }) :
    ∃ (s broken : State) (set : SlotSet),
      Relation.ReflTransGen (Call (survey start).1.sites) ((survey start).2, []) (s, [set]) ∧ set.factor = 2 ∧
      (∃ binding ∈ set.bindings, binding.use.user = ⟨5⟩) ∧ Edit.erase ⟨5⟩ s.kernel = .ok () broken.kernel ∧
      (∃ fault s', resize {} set 3 broken = .error (.malformed fault) s' ∧ s'.kernel ≠ broken.kernel) ∧
      ∃ set' s', resize {} set 4 broken = .ok set' s' := by
  let first : Site := ⟨⟨0⟩, ⟨0⟩, .tile, 1, some 2⟩
  let calls (t : SlotSet → Transform SlotSet) : Transform SlotSet := do
    let set ← expand {} first 2
    edit (Edit.erase ⟨5⟩)
    t set
  obtain ⟨set, broken, hrun, hcheck⟩ := exists_of_check (t := calls pure) (s := (survey start).2)
    (p := fun set s => set.factor == 2 && set.bindings.any (·.use.user == ⟨5⟩) && s.kernel.ops.size == 18)
    (by rw [hstart]; decide +kernel)
  obtain ⟨_, s, hexpand, hrun⟩ := bind_eq_ok hrun
  obtain ⟨_, _, herase, hrun⟩ := bind_eq_ok hrun
  cases hrun
  have hcalls : ∀ t, calls t (survey start).2 = t set broken :=
    fun t => (bind_of_ok hexpand).trans (bind_of_ok herase)
  obtain ⟨set', s', hgrow, -⟩ := exists_of_check (t := calls fun set => resize {} set 4) (s := (survey start).2)
    (p := fun _ _ => true) (by rw [hstart]; decide +kernel)
  have hfails : (match calls (fun set => resize {} set 3) (survey start).2 with
      | .error (.malformed _) s => s.kernel.ops.size == 24 | _ => false) = true := by
    rw [hstart]
    decide +kernel
  rw [hcalls] at hgrow hfails
  simp only [Bool.and_eq_true, beq_iff_eq, List.any_eq_true] at hcheck
  obtain ⟨⟨hfactor, hbinding⟩, hsize⟩ := hcheck
  refine ⟨s, broken, set, .single (.expand {} 2 (by rw [hstart]; decide +kernel) hexpand), hfactor, hbinding,
    (edit_eq_ok herase).1, ?_, set', s', hgrow⟩
  split at hfails
  · rename_i fault s₃ hrun₃
    refine ⟨fault, s₃, hrun₃, fun heq => ?_⟩
    rw [heq, hsize] at hfails
    cases hfails
  · cases hfails

/-- The fill of a tile was erased. -/
theorem resize_after_erase_tilePair :
    let start : State := { kernel := Kernel.build "pair" .unknown Stmt.tilePair, pass := "slots" }
    ∃ (s broken : State) (set : SlotSet),
      Relation.ReflTransGen (Call (survey start).1.sites) ((survey start).2, []) (s, [set]) ∧
      Edit.erase ⟨5⟩ s.kernel = .ok () broken.kernel ∧ (∃ binding ∈ set.bindings, binding.use.user = ⟨5⟩) ∧
      ¬set.Misses {} 3 broken.kernel ∧ ∃ fault s', resize {} set 3 broken = .error (.malformed fault) s' ∧
        s'.kernel ≠ broken.kernel := by
  intro start
  obtain ⟨s, broken, set, hcalls, hfactor, hbinding, herase, ⟨fault', s₃, hfails, hchanged⟩, -⟩ :=
    erased_fill_tilePair (show start = _ from rfl)
  obtain ⟨-, hmisses, hlate⟩ := resize_after_erase start rfl (by decide +kernel) hcalls List.mem_cons_self herase {}
    (show 1 ≤ 3 by decide) (show (3 : Int64).toInt = (3 : Nat) by decide)
  have hnot : ¬set.Misses {} 3 broken.kernel := by
    intro hmiss
    obtain ⟨_, hearly⟩ := hmisses hmiss
    rw [hearly] at hfails
    cases hfails
    exact hchanged rfl
  obtain ⟨-, hmalformed, hchanges⟩ := hlate hnot
  obtain ⟨fault, s', hrun⟩ := hmalformed (by rw [hfactor]; decide) hbinding
  exact ⟨s, broken, set, hcalls, herase, hbinding, hnot, fault, s', hrun, hchanges _ _ hrun⟩

/-- Ops of a set that a resizing does not look for, so that their loss goes unnoticed or is found too late: an
access, and a barrier that is needed as before. -/
theorem erased_overlooked_tilePair :
    let start : State := { kernel := Kernel.build "pair" .unknown Stmt.tilePair, pass := "slots" }
    (∃ (s broken : State) (set : SlotSet),
      Relation.ReflTransGen (Call (survey start).1.sites) ((survey start).2, []) (s, [set]) ∧
      (∃ binding ∈ set.bindings, binding.use.user = ⟨5⟩) ∧ Edit.erase ⟨5⟩ s.kernel = .ok () broken.kernel ∧
      (∃ set' s', resize {} set 4 broken = .ok set' s') ∧
      ∃ fault s', resize {} set 3 broken = .error (.malformed fault) s' ∧ s'.kernel ≠ broken.kernel) ∧
    ∃ (s broken : State) (set : SlotSet),
      Relation.ReflTransGen (Call (survey start).1.sites) ((survey start).2, []) (s, [set]) ∧
      set.guard = some ⟨⟨12⟩, true⟩ ∧ Edit.erase ⟨12⟩ s.kernel = .ok () broken.kernel ∧
      ∃ set' s', resize {} set 1 broken = .ok set' s' := by
  intro start
  constructor
  · obtain ⟨s, broken, set, hcalls, -, hbinding, herase, hlate, hunnoticed⟩ :=
      erased_fill_tilePair (show start = _ from rfl)
    exact ⟨s, broken, set, hcalls, hbinding, herase, hunnoticed, hlate⟩
  · let calls : Transform (SlotSet × SlotSet) := do
      let set ← expand {} ⟨⟨0⟩, ⟨0⟩, .tile, 1, some 2⟩ 1
      edit (Edit.erase ⟨12⟩)
      let set' ← resize {} set 1
      return (set, set')
    obtain ⟨⟨set, set'⟩, s', hrun, hguard⟩ := exists_of_check (t := calls) (s := (survey start).2)
      (p := fun sets _ => sets.1.guard == some ⟨⟨12⟩, true⟩) (by decide +kernel)
    obtain ⟨_, s, hexpand, hrun⟩ := bind_eq_ok hrun
    obtain ⟨_, broken, herase, hrun⟩ := bind_eq_ok hrun
    obtain ⟨_, _, hresize, hrun⟩ := bind_eq_ok hrun
    cases hrun
    exact ⟨s, broken, set, .single (.expand {} 1 (by decide +kernel) hexpand), beq_iff_eq.mp hguard,
      (edit_eq_ok herase).1, set', s', hresize⟩

end Transform
end SlotRotation
