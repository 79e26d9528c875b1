import SlotRotation.Proofs.SwapStages

/-! A resizing as a swap. The first slots and their releases may stay; the index, the selector and whatever there is
of later slots are exchanged for new ones, and so is the guard, if its need changes. -/

namespace SlotRotation

def Slot.storage (slot : Slot) : Nat × OpId × ValueId := (slot.ordinal, slot.alloc, slot.value)

theorem perm_take_drop {α : Type} [DecidableEq α] (xss : List (List α)) (c : Nat) :
    xss.flatten.Perm ((xss.map (·.take c)).flatten ++ (xss.map (·.drop c)).flatten) := by
  rw [List.perm_iff_count]
  intro x
  induction xss with
  | nil => rfl
  | cons xs xss ih =>
    have hxs : xs.count x = (xs.take c).count x + (xs.drop c).count x := by
      rw [← List.count_append, List.take_append_drop]
    simp only [List.flatten_cons, List.map_cons, List.count_append] at ih ⊢
    omega

namespace SlotSet

def own (set : SlotSet) : List OpId := set.members ++ set.inserted

def kept (set : SlotSet) (c : Nat) : List OpId :=
  (set.slots.take c).map Slot.alloc ++ (set.releases.map (·.take c)).flatten

def spare (set : SlotSet) (c : Nat) : List OpId :=
  (set.slots.drop c).map Slot.alloc ++ [set.selector] ++ (set.releases.map (·.drop c)).flatten

def expendable (set : SlotSet) (c : Nat) : List OpId := set.rotation.ops ++ set.spare c

variable {set set' resized : SlotSet} {N n c : Nat} {f : Use → ValueId → ValueId} {k k' : Kernel} {x : OpId}

theorem members_perm (set : SlotSet) (c : Nat) : set.members.Perm (set.kept c ++ set.expendable c) := by
  have hslots : (set.slots.map Slot.alloc).Perm
      ((set.slots.take c).map Slot.alloc ++ (set.slots.drop c).map Slot.alloc) := by
    rw [← List.map_append, List.take_append_drop]
  have hreleases := perm_take_drop set.releases c
  rw [List.perm_iff_count] at hslots hreleases ⊢
  intro x
  have hslotsx := hslots x
  have hreleasesx := hreleases x
  simp only [members, kept, expendable, spare, List.count_append] at hslotsx hreleasesx ⊢
  omega

theorem spare_zero (set : SlotSet) :
    set.spare 0 = set.slots.map Slot.alloc ++ [set.selector] ++ set.releases.flatten := by
  simp [spare]

theorem mem_members_of_kept (h : x ∈ set.kept c) : x ∈ set.members :=
  (set.members_perm c).mem_iff.mpr (List.mem_append_left _ h)

theorem mem_members_of_expendable (h : x ∈ set.expendable c) : x ∈ set.members :=
  (set.members_perm c).mem_iff.mpr (List.mem_append_right _ h)

theorem mem_expendable_of_spare (h : x ∈ set.spare c) : x ∈ set.expendable c := List.mem_append_right _ h

theorem mem_expendable_zero : x ∈ set.expendable 0 ↔ x ∈ set.members := by
  rw [(set.members_perm 0).mem_iff]
  simp [kept]

theorem exists_lastSlot (h : set.slots ≠ []) : ∃ last ∈ set.slots, set.lastSlot = .ok last := by
  refine ⟨set.slots.getLast h, List.getLast_mem h, ?_⟩
  unfold lastSlot
  rw [List.getLast?_eq_getLast_of_ne_nil h]

/-- The set is in place: its ops and its loop are there, and the selector defines the selected value. Of its guard
nothing is said but that it is none of these ops. -/
structure Seated (set : SlotSet) (N : Nat) (k : Kernel) : Prop where
  inhabited : set.slots ≠ []
  lengths : ∀ ops ∈ set.releases, ops.length = set.slots.length
  nodup : set.own.Nodup
  lodged : ∀ x ∈ set.members, k.Lodged N x
  loop : (k.loop? set.loop).isSome
  selects : ∀ i, k.instr? set.selector = some i → i.result? = some set.selected

namespace Seated

theorem members_nodup (h : set.Seated N k) : set.members.Nodup := (List.nodup_append.mp h.nodup).1

theorem apart (h : set.Seated N k) (hx : x ∈ set.inserted) : x ∉ set.members := fun hmem =>
  (List.nodup_append.mp h.nodup).2.2 x hmem x hx rfl

theorem of_reading (h : set.Seated N k) (hop : ∀ x ∈ set.members, k'.op? x = (k.op? x).map (Op.reading f x))
    (hf : ∀ use v, N ≤ v.index → N ≤ (f use v).index) (hloop : (k'.loop? set.loop).isSome) : set.Seated N k' where
  inhabited := h.inhabited
  lengths := h.lengths
  nodup := h.nodup
  lodged x hx := (h.lodged x hx).of_reading (hop x hx) hf
  loop := hloop
  selects i hi := by
    obtain ⟨op, hkop⟩ := (h.lodged _ selector_mem_members).op?
    have hinstr : i = op.instr.mapOperands fun j => f ⟨set.selector, j⟩ := by
      unfold Kernel.instr? at hi
      rw [hop _ selector_mem_members, hkop] at hi
      exact (Option.some.inj hi).symm
    rw [hinstr, Instr.result?_mapOperands]
    exact h.selects op.instr (by unfold Kernel.instr?; rw [hkop]; rfl)

theorem swaps {gone new : List OpId} (h : set.Seated N k) (hk : k.Swaps N gone new f k')
    (hgone : ∀ x ∈ set.members, x ∉ gone) : set.Seated N k' :=
  h.of_reading (fun x hx => hk.op?_of_lt (h.lodged x hx).index_lt (hgone x hx)) hk.raises (hk.loop? h.loop)

theorem reguards {guard : Option Guard} {gone new new' : List OpId} (h : set.Seated N k)
    (hreguards : set.Reguards guard gone new) (hk : k.Swaps N gone new' f k') : set.Seated N k' :=
  h.swaps hk fun x hx hgone => h.apart (hreguards.old x hgone) hx

theorem checkIntact_eq (h : set.Seated N k) : set.checkIntact k = .ok () := by
  have hnone : set.members.find? (fun op => !k.isLive op) = none := by
    rw [List.find?_eq_none]
    intro x hx
    simp [(h.lodged x hx).isLive]
  unfold checkIntact checkLoop checkMembers
  rw [if_pos h.loop, hnone]
  rfl

end Seated

/-- Slots, selector and releases of a set are made again for `n` slots, of which the first `c` are the old ones. -/
structure Remade (set resized : SlotSet) (N n c : Nat) (f : Use → ValueId → ValueId) (k k' : Kernel) : Prop where
  swaps : k.Swaps N (set.spare c) (resized.spare c) f k'
  count : resized.slots.length = n
  lengths : ∀ ops ∈ resized.releases, ops.length = n
  slots : (resized.slots.take c).map Slot.storage = (set.slots.take c).map Slot.storage
  releases : resized.releases.map (·.take c) = set.releases.map (·.take c)
  rest : resized = { set with
    slots := resized.slots, selector := resized.selector, selected := resized.selected,
    releases := resized.releases }

/-- A set becomes one of `n` slots, of which the first `c` are the old ones. -/
structure Refitted (set set' : SlotSet) (N n c : Nat) (f : Use → ValueId → ValueId) (k k' : Kernel) : Prop where
  swaps : ∃ gone new, k.Swaps N (gone ++ set.expendable c) (new ++ set'.expendable c) f k' ∧
    set.Reguards set'.guard gone new
  count : set'.slots.length = n
  lengths : ∀ ops ∈ set'.releases, ops.length = n
  slots : (set'.slots.take c).map Slot.storage = (set.slots.take c).map Slot.storage
  releases : set'.releases.map (·.take c) = set.releases.map (·.take c)
  loop : set'.loop = set.loop
  bindings : set'.bindings = set.bindings.map fun binding => { binding with selector := set'.selector }

end SlotSet

def Transform.refit (set : SlotSet) (n : Nat) (last : Slot) (guard : Option Guard) (rotation : Rotation)
    (point : InsertPoint) : Transform SlotSet := do
  let resized ←
    match Strategy.choose set.factor n with
    | .reallocate => reallocate set n last rotation.value point
    | strategy => regroup set strategy n last rotation.value point
  edit (Edit.eraseAll set.rotation.ops.reverse)
  return {
    resized with
    rotation, guard, bindings := set.bindings.map fun binding => { binding with selector := resized.selector } }

theorem Transform.does_refit {set resized : SlotSet} {n : Nat} {last : Slot} {guard : Option Guard}
    {rotation : Rotation} {point : InsertPoint} {k k₁ k' : Kernel}
    (hchoose : Strategy.choose set.factor n ≠ .reallocate)
    (hregroup : Does (regroup set (Strategy.choose set.factor n) n last rotation.value point) k resized k₁)
    (herase : Edit.eraseAll set.rotation.ops.reverse k₁ = .ok () k') :
    Does (refit set n last guard rotation point) k { resized with
      rotation, guard
      bindings := set.bindings.map fun binding => { binding with selector := resized.selector } } k' := by
  have hend : ∀ a : SlotSet, Does (do edit (Edit.eraseAll set.rotation.ops.reverse); return a) k₁ a k' := fun a =>
    (does_edit herase).bind (does_pure a)
  unfold refit
  cases hstrategy : Strategy.choose set.factor n with
  | reallocate => exact absurd hstrategy hchoose
  | shrink | grow =>
    rw [hstrategy] at hregroup
    exact hregroup.bind (hend _)

namespace SlotSet

variable {set : SlotSet} {N n : Nat} {k k' : Kernel} {added : List Slot} {selector : OpId}
  {releases : List (List OpId)}

def regrouped (set : SlotSet) (n : Nat) (added : List Slot) (selector : OpId) (releases : List (List OpId)) :
    SlotSet :=
  { set with
    slots := (set.slots.take n).map (fun slot => { slot with origin := .reused slot.ordinal }) ++ added
    selector, releases }

theorem remade_regrouped (hadded : added.length = n - set.slots.length)
    (hswaps : k.Swaps N (set.spare (min set.slots.length n))
      (added.map Slot.alloc ++ [selector] ++ (releases.map (·.drop (min set.slots.length n))).flatten)
      (fun _ v => v) k')
    (htake : releases.map (·.take (min set.slots.length n)) = set.releases.map (·.take (min set.slots.length n)))
    (hlengths : ∀ ops ∈ releases, ops.length = n) :
    set.Remade (set.regrouped n added selector releases) N n (min set.slots.length n) (fun _ v => v) k k' := by
  let old := (set.slots.take n).map fun slot => { slot with origin := .reused slot.ordinal }
  have hold : old.length = min set.slots.length n := by rw [List.length_map, List.length_take, Nat.min_comm]
  refine ⟨?_, ?_, hlengths, ?_, htake, rfl⟩
  · have hdrop : (old ++ added).drop (min set.slots.length n) = added := List.drop_left' hold
    show k.Swaps N _ (((old ++ added).drop (min set.slots.length n)).map Slot.alloc ++ _ ++ _) _ k'
    rw [hdrop]
    exact hswaps
  · show (old ++ added).length = n
    rw [List.length_append, hold, hadded]
    omega
  · show ((old ++ added).take (min set.slots.length n)).map Slot.storage = _
    rw [List.take_left' hold, Nat.min_comm, ← List.take_eq_take_min, List.map_map]
    rfl

end SlotSet

namespace Kernel

variable {N n : Nat} {k k' : Kernel} {F : Forest} {set resized : SlotSet} {last : Slot} {x : OpId}

theorem Stores.swaps_anew (h : Stores k F) (hlast : k.Lodged N last.alloc) (hx : k.Lodged N x) (ty : BufferType)
    (origin : Nat → SlotOrigin) (n : Nat) (index : ValueId) :
    ∃ slots selector selected k₁ k₂ F₂, Edit.allocateSlots ty origin 0 n (.after last.alloc) k = .ok slots k₁ ∧
      Edit.selectAmong ty slots index (.after x) k₁ = .ok (selector, selected) k₂ ∧ Stores k₂ F₂ ∧
      Swaps N [] (slots.map Slot.alloc ++ [selector]) (fun _ v => v) k k₂ ∧
      slots.map Slot.ordinal = List.range' 0 n ∧ (∀ slot ∈ slots, k.values.size ≤ slot.value.index) ∧
      k.values.size ≤ selected.index := by
  obtain ⟨slots, k₁, F₁, hrun₁, hstores₁, hswaps₁, hordinals, hvalues⟩ :=
    h.swaps_allocateSlots (hlast.anchors_after h.toArranges) ty origin 0 n
  obtain ⟨selector, selected, k₂, F₂, hrun₂, hstores₂, hswaps₂, hselected⟩ := hstores₁.swaps_selectAmong
    ((hswaps₁.lodged hx List.not_mem_nil).anchors_after hstores₁.toArranges) ty slots index
  exact ⟨slots, selector, selected, k₁, k₂, F₂, hrun₁, hrun₂, hstores₂,
    hswaps₁.trans hswaps₂ fun y hy => absurd hy List.not_mem_nil, hordinals, hvalues,
    Nat.le_trans hswaps₁.values hselected⟩

theorem Stores.swaps_retire (h : Stores k F) (hset : set.Seated N k) {slots : List Slot}
    (hslots : ∀ slot ∈ slots, N ≤ slot.value.index) :
    ∃ releases k₁ k₂ k₃ F₃, Edit.replaceReleases slots set.releases k = .ok releases k₁ ∧
      Edit.erase set.selector k₁ = .ok () k₂ ∧ Edit.eraseAll (set.slots.map Slot.alloc) k₂ = .ok () k₃ ∧
      Stores k₃ F₃ ∧ Swaps N (set.spare 0) releases.flatten (fun _ v => v) k k₃ ∧
      releases.length = set.releases.length ∧
      ∀ ops ∈ releases, ops.length = slots.length := by
  obtain ⟨hdistinct, hselector, -⟩ := SlotSet.members_disjoint hset.members_nodup
  obtain ⟨-, hflat, hapart⟩ := List.nodup_append.mp hset.members_nodup
  have hpos : 0 < set.slots.length := List.length_pos_iff.mpr hset.inhabited
  obtain ⟨releases, k₁, F₁, hrun₁, hstores₁, hswaps₁, hlength, hcounts⟩ := h.swaps_replaceReleases
    (fun ops hops => List.ne_nil_of_length_pos (by rw [hset.lengths ops hops]; exact hpos)) hslots hflat
    fun y hy => hset.lodged y (SlotSet.release_mem_members hy)
  have hlodged₁ : ∀ y ∈ set.members, y ∉ set.releases.flatten → k₁.Lodged N y := fun y hy hne =>
    hswaps₁.lodged (hset.lodged y hy) hne
  obtain ⟨k₂, F₂, hrun₂, hstores₂, hswaps₂⟩ := hstores₁.swaps_eraseAll [set.selector] (List.nodup_singleton _) (by
    intro y hy
    rw [List.mem_singleton.mp hy]
    exact hlodged₁ _ SlotSet.selector_mem_members fun hmem => hapart set.selector (by simp) _ hmem rfl)
  rw [Edit.eraseAll_singleton] at hrun₂
  obtain ⟨k₃, F₃, hrun₃, hstores₃, hswaps₃⟩ := hstores₂.swaps_eraseAll (set.slots.map Slot.alloc) hdistinct (by
    intro y hy
    obtain ⟨slot, hslot, rfl⟩ := List.mem_map.mp hy
    refine hswaps₂.lodged (hlodged₁ _ (SlotSet.alloc_mem_members hslot) fun hmem => ?_)
      (by simpa using hselector slot hslot)
    exact hapart slot.alloc (by simp [List.mem_map_of_mem hslot]) _ hmem rfl)
  have hswaps := (hswaps₁.trans hswaps₂ fun y hy => by
    rw [List.mem_singleton.mp hy]
    exact hset.lodged _ SlotSet.selector_mem_members).trans hswaps₃ fun y hy =>
      hset.lodged y (List.mem_append_left _ (List.mem_append_left _ (List.mem_append_left _ hy)))
  refine ⟨releases, k₁, k₂, k₃, F₃, hrun₁, hrun₂, hrun₃, hstores₃, ?_, hlength, hcounts⟩
  rw [List.append_nil, List.append_nil] at hswaps
  apply hswaps.congr_gone
  intro y
  rw [set.spare_zero]
  simp only [List.mem_append]
  tauto

section

variable (h : Stores k F) (hset : set.Seated N k) (hN : N ≤ k.values.size) (hlast : last ∈ set.slots)
  (hx : k.Lodged N x)
include h hset hN hlast hx

theorem Stores.remade_of_regroup (strategy : Strategy) (n : Nat) (index : ValueId) :
    ∃ resized k' F', Transform.Does (Transform.regroup set strategy n last index (.after x)) k resized k' ∧
      Stores k' F' ∧ set.Remade resized N n (min set.slots.length n) (fun _ v => v) k k' ∧
      resized.selected = set.selected := by
  obtain ⟨hslots, hselector, -⟩ := SlotSet.members_disjoint hset.members_nodup
  obtain ⟨-, hreleases, hapart⟩ := List.nodup_append.mp hset.members_nodup
  have hdrop : ∀ y ∈ (set.slots.drop n).map Slot.alloc, y ∈ set.slots.map Slot.alloc := by
    intro y hy
    rw [List.map_drop] at hy
    exact List.mem_of_mem_drop hy
  have hrelease : ∀ y ∈ (set.releases.map (·.drop (min set.slots.length n))).flatten, y ∈ set.releases.flatten :=
    fun y hy => (perm_take_drop set.releases _).mem_iff.mpr (List.mem_append_right _ hy)
  -- new slots behind the last one
  obtain ⟨added, k₁, F₁, hrun₁, hstores₁, hswaps₁, hordinals, hvalues⟩ := h.swaps_allocateSlots
    ((hset.lodged _ (SlotSet.alloc_mem_members hlast)).anchors_after h.toArranges) set.ty
    (fun _ => .fresh) set.factor (n - set.factor)
  have hadded : added.length = n - set.slots.length := by
    rw [← List.length_map (f := Slot.ordinal), hordinals, List.length_range']
    rfl
  have hset₁ := hset.swaps hswaps₁ fun y _ => List.not_mem_nil
  -- the selector behind the index
  obtain ⟨selector, k₂, F₂, hrun₂, hstores₂, hswaps₂⟩ := hstores₁.swaps_moveSelector
    ((hswaps₁.lodged hx List.not_mem_nil).anchors_after hstores₁.toArranges)
    (hset₁.lodged _ SlotSet.selector_mem_members) hset₁.selects
    (set.regrouped n added set.selector set.releases).slots index
  have hlodged₂ : ∀ y ∈ set.members, y ≠ set.selector → k₂.Lodged N y := fun y hy hne =>
    hswaps₂.lodged (hset₁.lodged y hy) (by simpa using hne)
  -- the releases
  obtain ⟨releases, k₃, F₃, hrun₃, hstores₃, hswaps₃, htake, hcounts⟩ :=
    hstores₂.swaps_regroupReleases n hset.lengths
      (List.length_pos_of_mem hlast) hadded (fun slot hslot => Nat.le_trans hN (hvalues slot hslot)) hreleases
    fun y hy => hlodged₂ y (SlotSet.release_mem_members hy) fun heq =>
      hapart set.selector (by simp) y hy heq.symm
  -- the slots that are left over
  obtain ⟨k₄, F₄, hrun₄, hstores₄, hswaps₄⟩ := hstores₃.swaps_eraseAll
    ((set.slots.drop n).map Slot.alloc) (hslots.sublist ((List.drop_sublist n set.slots).map _)) (by
      intro y hy
      obtain ⟨slot, hmem, rfl⟩ := List.mem_map.mp (hdrop y hy)
      refine hswaps₃.lodged (hlodged₂ _ (SlotSet.alloc_mem_members hmem) (hselector slot hmem)) fun hgone => ?_
      exact hapart _ (by simp [List.mem_map_of_mem hmem]) _ (hrelease _ hgone) rfl)
  have hswaps := ((hswaps₁.trans hswaps₂ fun y hy => by
    rw [List.mem_singleton.mp hy]
    exact hset.lodged _ SlotSet.selector_mem_members).trans hswaps₃ fun y hy =>
      hset.lodged y (SlotSet.release_mem_members (hrelease y hy))).trans hswaps₄ fun y hy =>
        hset.lodged y (List.mem_append_left _ (List.mem_append_left _ (List.mem_append_left _ (hdrop y hy))))
  rw [List.append_nil] at hswaps
  refine ⟨set.regrouped n added selector releases, k₄, F₄, ?_, hstores₄,
    SlotSet.remade_regrouped hadded (hswaps.congr_gone fun y => ?_) htake hcounts, rfl⟩
  · exact (Transform.does_edit hrun₁).bind ((Transform.does_edit hrun₂).bind ((Transform.does_edit hrun₃).bind
      ((Transform.does_discard hrun₄).bind ((Transform.does_record _ _ _).bind (Transform.does_pure _)))))
  · unfold SlotSet.spare
    rw [Nat.min_comm, ← List.drop_eq_drop_min]
    simp only [List.mem_append, List.not_mem_nil, false_or]
    tauto

theorem Stores.remade_of_reallocate {index : ValueId} {s s' : Transform.State} (hs : s.kernel = k)
    (hrun : Transform.reallocate set n last index (.after x) s = .ok resized s') :
    ∃ F', Stores s'.kernel F' ∧
      set.Remade resized N n 0 (redirect (set.bindings.map Binding.use) resized.selected) k s'.kernel ∧
      ∀ (i : Nat) (slot : Slot), resized.slots[i]? = some slot → slot.origin = .inherited (i % set.factor) := by
  subst hs
  obtain ⟨s₁, s₂, s₃, s₄, s₅, s₆, hslots, hselect, hrebind, hreleases, herase, hdiscard, hrest, rfl⟩ :=
    Transform.reallocate_stages hrun
  -- the slots and the selector
  obtain ⟨slots, selector, selected, k₁, k₂, F₂, hrun₁, hrun₂, hstores₂, hswaps₂, hordinals, hvalues, hselected⟩ :=
    h.swaps_anew (hset.lodged _ (SlotSet.alloc_mem_members hlast)) hx set.ty
      (fun ordinal => .inherited (ordinal % set.factor)) n index
  have horigin := Edit.allocateSlots_origin hrun₁
  rw [(Transform.edit_eq_ok hslots).1] at hrun₁
  cases hrun₁
  rw [(Transform.edit_eq_ok hselect).1] at hrun₂
  cases hrun₂
  have hcount : resized.slots.length = n := by
    rw [← List.length_map (f := Slot.ordinal), hordinals, List.length_range']
  -- the accesses
  obtain ⟨F₃, hstores₃, hswaps₃⟩ := hstores₂.swaps_rebindFrom (N := N) (Nat.le_trans hN hselected) hrebind
  have hswaps₂₃ := hswaps₂.trans hswaps₃ fun y hy => absurd hy List.not_mem_nil
  -- the old releases, the old selector and the old slots
  obtain ⟨releases, k₄, k₅, k₆, F₆, hrun₄, hrun₅, hrun₆, hstores₆, hswaps₆, hlength, hcounts⟩ :=
    hstores₃.swaps_retire (hset.swaps hswaps₂₃ fun y _ => List.not_mem_nil)
      fun slot hslot => Nat.le_trans hN (hvalues slot hslot)
  rw [(Transform.edit_eq_ok hreleases).1] at hrun₄
  cases hrun₄
  rw [(Transform.edit_eq_ok herase).1] at hrun₅
  cases hrun₅
  obtain ⟨-, hs₆⟩ := (Transform.does_discard hrun₆).unique rfl hdiscard
  rw [show (s₆.record .slotsReallocated resized.selector s!"{set.factor} -> {n} slots").kernel = k₆ from hs₆]
  have hswaps := hswaps₂₃.trans hswaps₆ fun y hy =>
    hset.lodged y (SlotSet.mem_members_of_expendable (SlotSet.mem_expendable_of_spare hy))
  refine ⟨F₆, hstores₆, ⟨?_, hcount, fun ops hops => (hcounts ops hops).trans hcount, rfl, ?_, hrest⟩, ?_⟩
  · rw [List.append_nil, List.append_nil] at hswaps
    rw [resized.spare_zero]
    exact hswaps
  · simp only [List.take_zero, List.map_const', hlength]
  · intro i slot hslot
    have hordinal : slot.ordinal = i := by
      have hmap : (resized.slots.map Slot.ordinal)[i]? = some slot.ordinal := by rw [List.getElem?_map, hslot]; rfl
      rw [hordinals] at hmap
      obtain ⟨hi, hget⟩ := List.getElem?_eq_some_iff.mp hmap
      rw [← hget, List.getElem_range']
      omega
    rw [horigin slot (List.mem_of_getElem? hslot), hordinal]

end

/-- A resizing of a set that is in place comes as far as the guard and the index. -/
theorem Stores.resize_eq_refit {factor : Int64} (h : Stores k F) (hset : set.Seated N k)
    (hn : slotsAsked factor = .ok n) (policy : Policy) (hguard : policy.needsGuard k set.ty set.loop n = false →
      k.otherNeedsGuard policy set.loop set.selector = false → ∀ x ∈ set.inserted, k.Lodged N x) :
    ∃ last guard rotation gone new x k₁ F₁, last ∈ set.slots ∧ x ∈ rotation.ops ∧ Stores k₁ F₁ ∧
      k.Swaps N gone (new ++ rotation.ops) (fun _ v => v) k₁ ∧ set.Reguards guard gone new ∧
      ∀ s : Transform.State, s.kernel = k → ∃ s₁ : Transform.State, s₁.kernel = k₁ ∧
        Transform.resize policy set factor s = Transform.refit set n last guard rotation (.after x) s₁ := by
  obtain ⟨last, hlast, hlast'⟩ := SlotSet.exists_lastSlot hset.inhabited
  obtain ⟨l, hl⟩ := Option.isSome_iff_exists.mp hset.loop
  obtain ⟨guard, k₁, F₁, gone, new, hrenew, hstores₁, hswaps₁, hreguards⟩ :=
    h.swaps_renewGuard (h.loop?_eq_some_iff.mp hl) policy n hguard
  obtain ⟨l₁, hl₁⟩ := Option.isSome_iff_exists.mp (hswaps₁.loop? hset.loop)
  obtain ⟨top, rotation, x, k₂, F₂, htop, hderive, hstores₂, hswaps₂, hx, hpast⟩ :=
    hstores₁.swaps_deriveRotation (hstores₁.loop?_eq_some_iff.mp hl₁) (slotsAsked_le hn)
  have hswaps := hswaps₁.trans hswaps₂ fun y hy => absurd hy List.not_mem_nil
  rw [List.append_nil] at hswaps
  refine ⟨last, guard, rotation, gone, new, x, k₂, F₂, hlast, hx, hstores₂, hswaps, hreguards, ?_⟩
  intro s hs
  obtain ⟨s₁, hrun₁, hs₁⟩ := hrenew s hs
  obtain ⟨s₂, hrun₂, hs₂⟩ := hderive s₁ hs₁
  refine ⟨s₂, hs₂, ?_⟩
  unfold Transform.resize
  rw [Transform.query_bind_ok hn, Transform.query_bind_ok hlast', Transform.query_bind_ok (hs ▸ hset.checkIntact_eq),
    bind_of_ok hrun₁, Transform.query_bind_ok (hs₁ ▸ htop), bind_of_ok hrun₂]
  dsimp only
  rw [hpast]
  rfl

theorem Stores.refitted_of_remade {k₁ k₂ : Kernel} {c : Nat} {f : Use → ValueId → ValueId} {gone new : List OpId}
    {guard : Option Guard} {rotation : Rotation} (h : Stores k₂ F) (hset : set.Seated N k)
    (hreguards : set.Reguards guard gone new) (hentry : k.Swaps N gone (new ++ rotation.ops) (fun _ v => v) k₁)
    (hremade : set.Remade resized N n c f k₁ k₂) :
    ∃ k' F', Edit.eraseAll set.rotation.ops.reverse k₂ = .ok () k' ∧ Stores k' F' ∧
      set.Refitted { resized with
        rotation, guard, bindings := set.bindings.map fun binding => { binding with selector := resized.selector } }
        N n c f k k' := by
  have hnodup : (set.kept c ++ (set.rotation.ops ++ set.spare c)).Nodup :=
    (set.members_perm c).nodup_iff.mp hset.members_nodup
  obtain ⟨hrotation, -, hapart⟩ := List.nodup_append.mp (List.nodup_append.mp hnodup).2.1
  have hswaps := hentry.trans hremade.swaps fun y hy =>
    hset.lodged y (SlotSet.mem_members_of_expendable (SlotSet.mem_expendable_of_spare hy))
  have hold : ∀ y ∈ set.rotation.ops.reverse, k.Lodged N y := fun y hy =>
    hset.lodged y (SlotSet.mem_members_of_expendable (c := c) (List.mem_append_left _ (List.mem_reverse.mp hy)))
  obtain ⟨k', F', hrun, hstores, herase⟩ := h.swaps_eraseAll set.rotation.ops.reverse
    (List.nodup_reverse.mpr hrotation) (by
      intro y hy
      apply hswaps.lodged (hold y hy)
      intro hmem
      rcases List.mem_append.mp hmem with hmem | hmem
      · exact hset.apart (hreguards.old y hmem)
          (SlotSet.mem_members_of_expendable (c := c) (List.mem_append_left _ (List.mem_reverse.mp hy)))
      · exact hapart y (List.mem_reverse.mp hy) y hmem rfl)
  refine ⟨k', F', hrun, hstores, ⟨gone, new, ?_, hreguards⟩, hremade.count, hremade.lengths, hremade.slots,
    hremade.releases, ?_, rfl⟩
  · have hall := hswaps.trans herase hold
    rw [List.append_nil, List.append_assoc new] at hall
    apply hall.congr_gone
    intro y
    unfold SlotSet.expendable
    simp only [List.mem_append, List.mem_reverse]
    tauto
  · rw [hremade.rest]

section

variable {factor : Int64} {policy : Policy} (h : Stores k F) (hset : set.Seated N k) (hN : N ≤ k.values.size)
  (hn : slotsAsked factor = .ok n) (hguard : policy.needsGuard k set.ty set.loop n = false →
    k.otherNeedsGuard policy set.loop set.selector = false → ∀ x ∈ set.inserted, k.Lodged N x)
include h hset hN hn hguard

variable (policy) in
theorem Stores.refitted_of_regroup (hchoose : Strategy.choose set.factor n ≠ .reallocate) :
    ∃ set' k' F', Transform.Does (Transform.resize policy set factor) k set' k' ∧ Stores k' F' ∧
      set.Refitted set' N n (min set.slots.length n) (fun _ v => v) k k' ∧ set'.selected = set.selected := by
  obtain ⟨last, guard, rotation, gone, new, x, k₁, F₁, hlast, hx, hstores₁, hentry, hreguards, hresize⟩ :=
    h.resize_eq_refit hset hn policy hguard
  obtain ⟨resized, k₂, F₂, hregroup, hstores₂, hremade, hselected⟩ := hstores₁.remade_of_regroup
    (hset.reguards hreguards hentry) (Nat.le_trans hN hentry.values) hlast
    (hentry.fresh x (List.mem_append_right _ hx)).2 (Strategy.choose set.factor n) n rotation.value
  obtain ⟨k', F', herase, hstores', hrefitted⟩ := hstores₂.refitted_of_remade hset hreguards hentry hremade
  refine ⟨_, k', F', ?_, hstores', hrefitted, hselected⟩
  intro s hs
  obtain ⟨s₁, hs₁, hrun⟩ := hresize s hs
  rw [hrun]
  exact Transform.does_refit hchoose hregroup herase s₁ hs₁

theorem Stores.refitted_of_reallocate (hchoose : Strategy.choose set.factor n = .reallocate) {s s' : Transform.State}
    (hs : s.kernel = k) {set' : SlotSet} (hrun : Transform.resize policy set factor s = .ok set' s') :
    ∃ F', Stores s'.kernel F' ∧
      set.Refitted set' N n 0 (redirect (set.bindings.map Binding.use) set'.selected) k s'.kernel ∧
      ∀ (i : Nat) (slot : Slot), set'.slots[i]? = some slot → slot.origin = .inherited (i % set.factor) := by
  obtain ⟨last, guard, rotation, gone, new, x, k₁, F₁, hlast, hx, hstores₁, hentry, hreguards, hresize⟩ :=
    h.resize_eq_refit hset hn policy hguard
  obtain ⟨s₁, hs₁, hrefit⟩ := hresize s hs
  rw [hrefit] at hrun
  unfold Transform.refit at hrun
  rw [hchoose] at hrun
  obtain ⟨resized, s₂, hreallocate, herase, rfl⟩ := Transform.bind_edit_eq_ok hrun
  obtain ⟨F₂, hstores₂, hremade, horigin⟩ := hstores₁.remade_of_reallocate (hset.reguards hreguards hentry)
    (Nat.le_trans hN hentry.values) hlast (hentry.fresh x (List.mem_append_right _ hx)).2 hs₁ hreallocate
  obtain ⟨k', F', herase', hstores', hrefitted⟩ := hstores₂.refitted_of_remade hset hreguards hentry hremade
  rw [(Transform.edit_eq_ok herase).1] at herase'
  cases herase'
  exact ⟨F', hstores', hrefitted, horigin⟩

theorem Stores.refitted_of_resize {s s' : Transform.State} (hs : s.kernel = k) {set' : SlotSet}
    (hrun : Transform.resize policy set factor s = .ok set' s') :
    ∃ F', Stores s'.kernel F' ∧
      (Strategy.choose set.factor n ≠ .reallocate ∧ set'.selected = set.selected ∧
          set.Refitted set' N n (min set.slots.length n) (fun _ v => v) k s'.kernel ∨
        Strategy.choose set.factor n = .reallocate ∧
          (∀ (i : Nat) (slot : Slot), set'.slots[i]? = some slot → slot.origin = .inherited (i % set.factor)) ∧
          set.Refitted set' N n 0 (redirect (set.bindings.map Binding.use) set'.selected) k s'.kernel) := by
  by_cases hchoose : Strategy.choose set.factor n = .reallocate
  · obtain ⟨F', hstores, hrefitted, horigin⟩ := h.refitted_of_reallocate hset hN hn hguard hchoose hs hrun
    exact ⟨F', hstores, Or.inr ⟨hchoose, horigin, hrefitted⟩⟩
  · obtain ⟨set'', k', F', hdoes, hstores, hrefitted, hselected⟩ :=
      h.refitted_of_regroup policy hset hN hn hguard hchoose
    obtain ⟨rfl, rfl⟩ := hdoes.unique hs hrun
    exact ⟨F', hstores, Or.inl ⟨hchoose, hselected, hrefitted⟩⟩

end

end Kernel
end SlotRotation
