import SlotRotation.Proofs.Effect
import SlotRotation.Proofs.Swaps

/-! The stages of a resizing as swaps. Each of them goes through where the ops that it takes out, and those next to
which it puts others, are in place. -/

namespace SlotRotation

/-- The guard of a set is exchanged: of the barriers put there for the set, `gone` go and `new` come. -/
structure SlotSet.Reguards (set : SlotSet) (guard : Option Guard) (gone new : List OpId) : Prop where
  old : ∀ x ∈ gone, x ∈ set.inserted
  made : ∀ x ∈ new, x ∈ { set with guard }.inserted
  kept : ∀ x ∈ { set with guard }.inserted, x ∈ new ∨ x ∈ set.inserted ∧ x ∉ gone

theorem Edit.allocateSlots_origin {ty : BufferType} {origin : Nat → SlotOrigin} {first count : Nat} {p : InsertPoint}
    {slots : List Slot} {k k' : Kernel} (h : allocateSlots ty origin first count p k = .ok slots k') :
    ∀ slot ∈ slots, slot.origin = origin slot.ordinal := by
  induction count generalizing first p slots k with
  | zero =>
    cases h
    exact fun slot hslot => absurd hslot List.not_mem_nil
  | succ count ih =>
    obtain ⟨value, k₁, -, h⟩ := bind_eq_ok h
    obtain ⟨alloc, k₂, -, h⟩ := bind_eq_ok h
    obtain ⟨rest, k₃, hrest, h⟩ := bind_eq_ok h
    cases h
    intro slot hslot
    rcases List.mem_cons.mp hslot with rfl | hslot
    · rfl
    · exact ih hrest slot hslot

namespace Kernel

variable {N : Nat} {k k' : Kernel} {F : Forest} {p : InsertPoint} {set : SlotSet} {x : OpId}

theorem Lodged.anchors_after (h : k.Lodged N x) (hF : Arranges k F) : F.Anchors (.after x) := h.node hF

theorem Lodged.anchors_before (h : k.Lodged N x) (hF : Arranges k F) : F.Anchors (.before x) := h.node hF

namespace Stores

theorem swaps_eraseAll (h : Stores k F) (ids : List OpId) (hids : ids.Nodup) (hlodged : ∀ x ∈ ids, k.Lodged N x) :
    ∃ k' F', Edit.eraseAll ids k = .ok () k' ∧ Stores k' F' ∧ Swaps N ids [] (fun _ v => v) k k' := by
  obtain ⟨k', hrun, hk, -⟩ := h.becomes_dropping hids fun x hx => (hlodged x hx).node h.toArranges
  exact ⟨k', _, hrun, hk.stores, h.swaps_dropping hk.stores.toArranges hk.toExtends hlodged⟩

theorem swaps_allocateSlots (h : Stores k F) (hp : F.Anchors p) (ty : BufferType) (origin : Nat → SlotOrigin)
    (first count : Nat) :
    ∃ slots k' F', Edit.allocateSlots ty origin first count p k = .ok slots k' ∧ Stores k' F' ∧
      Swaps N [] (slots.map Slot.alloc) (fun _ v => v) k k' ∧ slots.map Slot.ordinal = List.range' first count ∧
      ∀ slot ∈ slots, k.values.size ≤ slot.value.index := by
  obtain ⟨slots, k', hrun, hk, hordinals⟩ := h.allocateSlots hp ty origin first count
  have hids : (allocNodes ty slots).map Prod.fst = slots.map Slot.alloc := List.map_map ..
  refine ⟨slots, k', _, hrun, hk.stores, ?_, hordinals, fun slot hslot => ?_⟩
  · rw [← hids]
    apply hk.swaps h.toArranges hp
    intro n hn v hv
    obtain ⟨slot, -, rfl⟩ := List.mem_map.mp hn
    cases hv
  · exact hk.results _ (List.mem_map_of_mem hslot) slot.value rfl

theorem swaps_releaseSlots (h : Stores k F) (hp : F.Anchors p) {slots : List Slot}
    (hslots : ∀ slot ∈ slots, N ≤ slot.value.index) :
    ∃ ops k' F', Edit.releaseSlots slots p k = .ok ops k' ∧ Stores k' F' ∧ Swaps N [] ops (fun _ v => v) k k' ∧
      ops.length = slots.length := by
  obtain ⟨ops, k', hrun, hk, hlength⟩ := h.releaseSlots hp slots
  refine ⟨ops, k', _, hrun, hk.stores, ?_, hlength⟩
  rw [← map_fst_releaseNodes hlength]
  apply hk.swaps h.toArranges hp
  intro n hn v hv
  obtain ⟨i, slot, hslot, -, hdealloc⟩ := SlotSet.mem_releaseNodes.mp hn
  rw [hdealloc] at hv
  cases hv
  exact hslots slot (List.mem_of_getElem? hslot)

theorem swaps_selectAmong (h : Stores k F) (hp : F.Anchors p) (ty : BufferType) (slots : List Slot)
    (index : ValueId) :
    ∃ op v k' F', Edit.selectAmong ty slots index p k = .ok (op, v) k' ∧ Stores k' F' ∧
      Swaps N [] [op] (fun _ v => v) k k' ∧ k.values.size ≤ v.index := by
  obtain ⟨op, v, k', hrun, hk, -⟩ := h.selectAmong hp ty slots index
  refine ⟨op, v, k', _, hrun, hk.stores, ?_, hk.results _ (List.mem_singleton_self _) v rfl⟩
  apply hk.swaps h.toArranges hp
  intro n hn w hw
  rw [List.mem_singleton.mp hn] at hw
  cases hw

theorem swaps_moveSelector (h : Stores k F) (hp : F.Anchors p) (hselector : k.Lodged N set.selector)
    (hselects : ∀ i, k.instr? set.selector = some i → i.result? = some set.selected) (slots : List Slot)
    (index : ValueId) :
    ∃ op k' F', Edit.moveSelector set slots index p k = .ok op k' ∧ Stores k' F' ∧
      Swaps N [set.selector] [op] (fun _ v => v) k k' := by
  let instr : Instr := .selectSlot set.selected (slots.map Slot.value) index
  obtain ⟨o, ho, hleaf⟩ := hselector.node h.toArranges
  have hregion : instr.region? = none := rfl
  obtain ⟨k₁, k', hrun₁, hrun', hstores, hk, -⟩ :=
    h.supplant hp hregion ho hleaf rfl (hselects o (h.instr?_of_mem ho))
  obtain ⟨_, hinsert, harr, hsize, hvalues⟩ := h.toArranges.insert hp hregion
  rw [hrun₁] at hinsert
  cases hinsert
  -- in between two ops define the value, so the ops are arranged but not stored
  have hk₁ : Extends k k₁ := by
    refine ⟨by rw [hsize]; exact Nat.le_succ _, ?_, fun v ty hv => ?_⟩
    · exact Nat.le_of_eq (by rw [hvalues, size_values_define])
    · rw [← hv, ← typeOf?_define k instr k.nextOp, typeOf?, typeOf?, value?, value?, hvalues]
  have hin : Swaps N [] [k.nextOp] (fun _ v => v) k k₁ := by
    apply h.swaps_placing hp harr hk₁
    · exact List.nodup_singleton _
    · exact fun n hn => Nat.le_of_eq (by rw [List.mem_singleton.mp hn]; rfl)
    · exact fun n hn => by rw [List.mem_singleton.mp hn]; rfl
    · exact fun n hn v hv => by rw [List.mem_singleton.mp hn] at hv; cases hv
  have ho₁ : (set.selector, o) ∈ (F.rewrite (.placing p [(k.nextOp, instr)])).nodes := Forest.mem_placing h.plain ho
  obtain ⟨_, herase, -, hsize', hvalues'⟩ := harr.erase ho₁ hleaf
  rw [hrun'] at herase
  cases herase
  have hout : Swaps N [set.selector] [] (fun _ v => v) k₁ k' := by
    apply harr.swaps_dropping hstores.toArranges (extends_of_values (Nat.le_of_eq hsize'.symm) hvalues')
    intro x hx
    rw [List.mem_singleton.mp hx]
    exact hin.lodged hselector List.not_mem_nil
  have hswaps := hin.trans hout fun x hx => by
    rw [List.mem_singleton.mp hx]
    exact hselector
  exact ⟨k.nextOp, k', _, (bind_of_ok hrun₁).trans (bind_of_ok hrun'), hstores, hswaps⟩

theorem swaps_rebindFrom {s s' : Transform.State} (h : Stores s.kernel F) {old v : ValueId} (hv : N ≤ v.index)
    {bindings : List Binding} {u : Unit} (hrun : Transform.rebindFrom old v bindings s = .ok u s') :
    ∃ F', Stores s'.kernel F' ∧ Swaps N [] [] (redirect (bindings.map Binding.use) v) s.kernel s'.kernel := by
  induction bindings generalizing s F with
  | nil =>
    cases hrun
    have hid : redirect [] v = fun _ w => w := by
      funext use w
      exact if_neg List.not_mem_nil
    rw [List.map_nil, hid]
    exact ⟨F, h, .refl N _⟩
  | cons binding bindings ih =>
    obtain ⟨found, s₁, hset, hrun⟩ := bind_eq_ok hrun
    have hset := (Transform.edit_eq_ok hset).1
    obtain ⟨k₁, hset', hk, -, -⟩ := h.redirect_one (h.mem_uses_of_setOperand hset) v
    rw [hset] at hset'
    cases hset'
    have hone : Swaps N [] [] (fun use w => if use = binding.use then v else w) s.kernel s₁.kernel := by
      apply h.swaps_rebinding hk.stores.toArranges hk.toExtends
      intro use w hw
      split
      · exact hv
      · exact hw
    split at hrun
    · obtain ⟨_, s₂, hrecord, hrun⟩ := bind_eq_ok hrun
      cases hrecord
      obtain ⟨F', hstores, hrest⟩ := ih (s := s₁.record _ _ _) hk.stores hrun
      refine ⟨F', hstores, ?_⟩
      rw [List.map_cons, ← redirect_cons]
      exact hone.trans hrest fun x hx => absurd hx List.not_mem_nil
    · cases hrun

section

variable {n : Nat} {added slots : List Slot} {ops : List OpId} {releases : List (List OpId)}

theorem swaps_regroupRelease (h : Stores k F) (target : Nat) (hlength : ops.length = n) (hn : 0 < n)
    (hcount : added.length = target - n) (hadded : ∀ slot ∈ added, N ≤ slot.value.index) (hnodup : ops.Nodup)
    (hlodged : ∀ x ∈ ops, k.Lodged N x) :
    ∃ ops' k' F', Edit.regroupRelease target added ops k = .ok ops' k' ∧ Stores k' F' ∧
      Swaps N (ops.drop (min n target)) (ops'.drop (min n target)) (fun _ v => v) k k' ∧
      ops'.take (min n target) = ops.take (min n target) ∧ ops'.length = target := by
  have hne : ops ≠ [] := List.length_pos_iff.mp (by omega)
  have hlast : ops.getLast? = some (ops.getLast hne) := List.getLast?_eq_getLast_of_ne_nil hne
  rcases Nat.le_or_ge target n with hle | hle
  · -- No slot is added, so nothing is put behind the last op, which may be gone by then.
    obtain rfl : added = [] := List.length_eq_zero_iff.mp (by omega)
    obtain ⟨k', F', hrun, hstores, hswaps⟩ := h.swaps_eraseAll _ (hnodup.sublist (List.drop_sublist target ops))
      fun x hx => hlodged x (List.mem_of_mem_drop hx)
    have htake : (ops.take target).length = target := List.length_take_of_le (by omega)
    rw [Nat.min_eq_right hle]
    refine ⟨ops.take target, k', F', ?_, hstores, ?_, ?_, htake⟩
    · unfold Edit.regroupRelease
      rw [bind_of_ok hrun, hlast]
      show EStateM.Result.ok (ops.take target ++ []) k' = _
      rw [List.append_nil]
    · rw [List.drop_eq_nil_of_le (Nat.le_of_eq htake)]
      exact hswaps
    · rw [List.take_take, Nat.min_self]
  · have hdrop : ops.drop target = [] := List.drop_eq_nil_of_le (by omega)
    have htake : ops.take target = ops := List.take_of_length_le (by omega)
    obtain ⟨new, k', F', hrun, hstores, hswaps, hnew⟩ := h.swaps_releaseSlots
      ((hlodged _ (List.getLast_mem hne)).anchors_after h.toArranges) hadded
    rw [Nat.min_eq_left hle, List.drop_eq_nil_of_le (Nat.le_of_eq hlength)]
    refine ⟨ops ++ new, k', F', ?_, hstores, ?_, ?_, ?_⟩
    · unfold Edit.regroupRelease
      rw [hdrop, bind_of_ok (show Edit.eraseAll [] k = .ok () k from rfl), hlast, htake]
      exact bind_of_ok hrun
    · rw [List.drop_left' hlength]
      exact hswaps
    · rw [List.take_left' hlength, List.take_of_length_le (Nat.le_of_eq hlength)]
    · rw [List.length_append, hnew, hlength, hcount]
      omega

theorem swaps_regroupReleases (h : Stores k F) (target : Nat) (hlengths : ∀ ops ∈ releases, ops.length = n)
    (hn : 0 < n) (hcount : added.length = target - n) (hadded : ∀ slot ∈ added, N ≤ slot.value.index)
    (hnodup : releases.flatten.Nodup) (hlodged : ∀ x ∈ releases.flatten, k.Lodged N x) :
    ∃ releases' k' F', Edit.regroupReleases target added releases k = .ok releases' k' ∧ Stores k' F' ∧
      Swaps N (releases.map (·.drop (min n target))).flatten (releases'.map (·.drop (min n target))).flatten
        (fun _ v => v) k k' ∧
      releases'.map (·.take (min n target)) = releases.map (·.take (min n target)) ∧
      ∀ ops ∈ releases', ops.length = target := by
  induction releases generalizing k F with
  | nil => exact ⟨[], k, F, rfl, h, .refl N k, rfl, by simp⟩
  | cons ops releases ih =>
    rw [List.flatten_cons, List.nodup_append] at hnodup
    obtain ⟨hnodup₁, hnodup₂, hapart⟩ := hnodup
    have hlodged₂ : ∀ x ∈ releases.flatten, k.Lodged N x := fun x hx => hlodged x (List.mem_append_right _ hx)
    obtain ⟨ops', k₁, F₁, hrun₁, hstores₁, hswaps₁, htake₁, hlength₁⟩ := h.swaps_regroupRelease target
      (hlengths ops List.mem_cons_self) hn hcount hadded hnodup₁ fun x hx => hlodged x (List.mem_append_left _ hx)
    obtain ⟨releases', k₂, F₂, hrun₂, hstores₂, hswaps₂, htake₂, hlength₂⟩ := ih hstores₁
      (fun ops hops => hlengths ops (List.mem_cons_of_mem _ hops)) hnodup₂ fun x hx =>
        hswaps₁.lodged (hlodged₂ x hx) fun hmem => hapart x (List.mem_of_mem_drop hmem) x hx rfl
    refine ⟨ops' :: releases', k₂, F₂, ?_, hstores₂, ?_, ?_, ?_⟩
    · unfold Edit.regroupReleases
      rw [bind_of_ok hrun₁]
      exact bind_of_ok hrun₂
    · apply hswaps₁.trans hswaps₂
      intro x hx
      obtain ⟨_, hmem, hx⟩ := List.mem_flatten.mp hx
      obtain ⟨rest, hrest, rfl⟩ := List.mem_map.mp hmem
      exact hlodged₂ x (List.mem_flatten.mpr ⟨rest, hrest, List.mem_of_mem_drop hx⟩)
    · rw [List.map_cons, List.map_cons, htake₁, htake₂]
    · intro ops hops
      rcases List.mem_cons.mp hops with rfl | hops
      · exact hlength₁
      · exact hlength₂ ops hops

theorem swaps_replaceReleases (h : Stores k F) (hne : ∀ ops ∈ releases, ops ≠ [])
    (hslots : ∀ slot ∈ slots, N ≤ slot.value.index) (hnodup : releases.flatten.Nodup)
    (hlodged : ∀ x ∈ releases.flatten, k.Lodged N x) :
    ∃ releases' k' F', Edit.replaceReleases slots releases k = .ok releases' k' ∧ Stores k' F' ∧
      Swaps N releases.flatten releases'.flatten (fun _ v => v) k k' ∧ releases'.length = releases.length ∧
      ∀ ops ∈ releases', ops.length = slots.length := by
  induction releases generalizing k F with
  | nil => exact ⟨[], k, F, rfl, h, .refl N k, rfl, by simp⟩
  | cons ops releases ih =>
    rw [List.flatten_cons, List.nodup_append] at hnodup
    obtain ⟨hnodup₁, hnodup₂, hapart⟩ := hnodup
    have hlodged₁ : ∀ x ∈ ops, k.Lodged N x := fun x hx => hlodged x (List.mem_append_left _ hx)
    have hlodged₂ : ∀ x ∈ releases.flatten, k.Lodged N x := fun x hx => hlodged x (List.mem_append_right _ hx)
    cases ops with
    | nil => exact absurd rfl (hne [] List.mem_cons_self)
    | cons old olds =>
      obtain ⟨new, k₁, F₁, hrun₁, hstores₁, hswaps₁, hlength₁⟩ := h.swaps_releaseSlots
        ((hlodged₁ old List.mem_cons_self).anchors_before h.toArranges) hslots
      obtain ⟨k₂, F₂, hrun₂, hstores₂, hswaps₂⟩ := hstores₁.swaps_eraseAll _ hnodup₁ fun x hx =>
        hswaps₁.lodged (hlodged₁ x hx) List.not_mem_nil
      have hswaps₁₂ := hswaps₁.trans hswaps₂ hlodged₁
      obtain ⟨releases', k₃, F₃, hrun₃, hstores₃, hswaps₃, hcount, hlength₃⟩ := ih hstores₂
        (fun ops hops => hne ops (List.mem_cons_of_mem _ hops)) hnodup₂ fun x hx =>
          hswaps₁₂.lodged (hlodged₂ x hx) fun hmem => hapart x hmem x hx rfl
      refine ⟨new :: releases', k₃, F₃, ?_, hstores₃, ?_, ?_, ?_⟩
      · unfold Edit.replaceReleases
        rw [bind_of_ok hrun₁, bind_of_ok hrun₂]
        exact bind_of_ok hrun₃
      · have hswaps := hswaps₁₂.trans hswaps₃ hlodged₂
        rw [List.append_nil] at hswaps
        exact hswaps
      · rw [List.length_cons, List.length_cons, hcount]
      · intro ops hops
        rcases List.mem_cons.mp hops with rfl | hops
        · exact hlength₁
        · exact hlength₃ ops hops

end

end Stores

namespace Stores

variable {l : Loop} {a : OpId}

/-- The guard of a set whose slot count becomes `n`. The old barrier need not be there unless it is to go. -/
theorem swaps_renewGuard (h : Stores k F) (hl : (set.loop, .loop l) ∈ F.nodes) (policy : Policy) (n : Nat)
    (hguard : policy.needsGuard k set.ty set.loop n = false →
      k.otherNeedsGuard policy set.loop set.selector = false → ∀ x ∈ set.inserted, k.Lodged N x) :
    ∃ guard k' F' gone new, Transform.Does (Transform.renewGuard policy set n) k guard k' ∧ Stores k' F' ∧
      Swaps N gone new (fun _ v => v) k k' ∧ set.Reguards guard gone new := by
  cases hneeds : policy.needsGuard k set.ty set.loop n with
  | true =>
    cases hg : set.guard with
    | some guard =>
      refine ⟨some guard, k, F, [], [], Transform.does_renewGuard_stay hneeds hg, h, .refl N k, by simp, by simp,
        fun x hx => Or.inr ⟨?_, by simp⟩⟩
      unfold SlotSet.inserted at hx ⊢
      rw [hg]
      exact hx
    | none =>
      obtain ⟨guard, k', p, ns, hdoes, hk, -, hns⟩ := h.leadWithBarrier hl
      have hids : ns.map Prod.fst = { set with guard := some guard }.inserted := by
        rw [hns]
        exact SlotSet.map_fst_guard { set with guard := some guard }
      refine ⟨some guard, k', _, [], _, Transform.does_renewGuard_lead hneeds hg hdoes, hk.stores,
        hk.swaps h.toArranges (hk.opens.anchors hl) ?_, by simp, fun x hx => hids ▸ hx,
        fun x hx => Or.inl (hids ▸ hx)⟩
      intro n hn v hv
      rw [hk.barriers n hn] at hv
      cases hv
  | false =>
    by_cases hgoes : ∃ g, set.guard = some g ∧ g.inserted = true ∧
        k.otherNeedsGuard policy set.loop set.selector = false
    · obtain ⟨g, hg, hins, hother⟩ := hgoes
      have hids : set.inserted = [g.op] := by
        unfold SlotSet.inserted
        rw [hg, Option.filter_some_pos hins]
        rfl
      obtain ⟨k', F', hrun, hstores, hswaps⟩ := h.swaps_eraseAll _ (List.nodup_singleton g.op) fun x hx =>
        hguard hneeds hother x (hids ▸ hx)
      rw [Edit.eraseAll_singleton] at hrun
      exact ⟨none, k', F', [g.op], [], Transform.does_renewGuard_drop hneeds hg hins hother
        (Transform.does_edit hrun), hstores, hswaps, fun x hx => hids ▸ hx, by simp,
        fun x hx => absurd hx List.not_mem_nil⟩
    · exact ⟨none, k, F, [], [], Transform.does_renewGuard_leave hneeds hgoes, h, .refl N k, by simp, by simp,
        fun x hx => absurd hx List.not_mem_nil⟩

theorem swaps_deriveRotation {n : Nat} (h : Stores k F) (hl : (a, .loop l) ∈ F.nodes)
    (hn : n ≤ Int64.maxValue.toInt) :
    ∃ top rotation x k' F', k.bodyTop a = .ok top ∧ Transform.Does (Transform.deriveRotation a n top) k rotation k' ∧
      Stores k' F' ∧ Swaps N [] rotation.ops (fun _ v => v) k k' ∧ x ∈ rotation.ops ∧
      top.past rotation.ops = .after x := by
  obtain ⟨p, hp⟩ := h.prepares_nil hl
  obtain ⟨rotation, rot, k', hdoes, hk, hrotates, hops, -⟩ := hp.deriveRotation h hl hn
  obtain ⟨d, hd, -⟩ := hrotates.computes.value
  have hne : rotation.ops ≠ [] := by
    rw [hops]
    exact List.ne_nil_of_mem (List.mem_map_of_mem hd)
  refine ⟨p, rotation, rotation.ops.getLast hne, k', _, hp.bodyTop_eq h hl, hdoes, hk.stores, ?_,
    List.getLast_mem hne, ?_⟩
  · rw [hops]
    apply hk.swaps h.toArranges (hp.opens.anchors hl)
    intro m hm v hv
    rcases hrotates.mem_cases hm with ⟨_, _, heq⟩ | ⟨_, _, _, _, heq⟩
    · rw [heq] at hv
      cases hv
    · rw [heq] at hv
      cases hv
  · unfold InsertPoint.past
    rw [List.getLast?_eq_getLast_of_ne_nil hne]
    rfl

end Stores
end Kernel
end SlotRotation
