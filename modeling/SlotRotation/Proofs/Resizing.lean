import SlotRotation.Proofs.Installs

/-! What a change of the slot count does to the footprint of a set, whichever way it is made: slots are added behind
the last one, the body gets a new entry, accesses are redirected or not, releases are traded, and old ops go. -/

namespace SlotRotation

def Forest.refitted (F : Forest) (ty : BufferType) (last : OpId) (added : List Slot) (p : InsertPoint)
    (es : List Node) : Forest :=
  (F.rewrite (.placing (.after last) (allocNodes ty added))).rewrite (.placing p es)

/-- `early` are the ops that go ahead of the trade of the releases, `late` those that go after it. -/
structure Resizing (k : Kernel) (F : Forest) (set : SlotSet) (l : Loop) (ns : List Node) where
  point : InsertPoint
  guard : List Node
  rot : List Node
  rotation : Rotation
  last : Slot
  added : List Slot
  slots : List Slot
  selector : OpId
  selected : ValueId
  redirects : Rewriting
  early : List OpId
  trade : Rewriting
  late : List OpId
  releases : List (List OpId)
  stores : k.Stores F
  fits : set.Fits F
  lies : (set.footprint ns).Lies F set.loop l
  ids : ns.map Prod.fst = set.rotation.ops
  opens : F.Opens set.loop l point
  guarded : ∀ n ∈ guard, n.2 = .barrier
  rotates : Rotates F l slots.length rot rotation.value
  rot_ids : rotation.ops = rot.map Prod.fst
  rot_factor : rotation.factor = slots.length
  entry_new : ∀ n ∈ guard ++ rot, k.ops.size ≤ n.1.index ∧ n.2.region? = none
  rot_new : ∀ n ∈ rot, ∀ v, n.2.result? = some v → k.values.size ≤ v.index
  is_last : set.slots.getLast? = some last
  added_new : ∀ slot ∈ added, k.ops.size ≤ slot.alloc.index ∧ k.values.size ≤ slot.value.index
  inhabited : slots ≠ []
  ordinals : slots.map Slot.ordinal = List.range slots.length
  selector_new : k.ops.size ≤ selector.index
  selected_from : selected = set.selected ∨ k.values.size ≤ selected.index
  slots_from : ∀ slot ∈ slots, k.values.size ≤ slot.value.index ∨
    (selected = set.selected ∧ ∃ old ∈ set.slots, old.value = slot.value)
  redirects_flat : redirects.Flat
  redirects_image : ∀ n ∈ F.nodes, n.1 ∉ (set.footprint ns).ids →
    redirects.image n = [(n.1, n.2.mapOperands fun _ w => if w = set.selected then selected else w)]
  redirects_spares : ∀ x, x ∈ (set.footprint ns).ids ∨ k.ops.size ≤ x.index → redirects.Spares x
  gone : ∀ x ∈ early ++ late, x ∈ set.members ∧ x ∉ set.releases.flatten
  prelude_gone : ∀ x ∈ set.selector :: set.rotation.ops, x ∈ early ++ late
  kept : (allocNodes set.ty (set.slots ++ added)).filter (fun n => n.1 ∉ early ++ late) = allocNodes set.ty slots
  trade_flat : trade.Flat
  trade_local : trade.Local set.releases.flatten
  traded : List.Forall₂ (fun ns ops => ops.length = slots.length ∧ ns.flatMap trade.image = releaseNodes slots ops)
    (set.releases.map (releaseNodes set.slots)) releases
  origin : ∀ ops ∈ releases, ∀ x ∈ ops, x ∈ set.releases.flatten ∨ k.ops.size ≤ x.index

namespace Resizing

variable {k : Kernel} {F : Forest} {set : SlotSet} {l : Loop} {ns : List Node} (R : Resizing k F set l ns)

def select : Node := (R.selector, .selectSlot R.selected (R.slots.map Slot.value) R.rotation.value)

def second : Rewriting := (Rewriting.dropping R.early).andThen (R.trade.andThen (.dropping R.late))

def result (guard : Option Guard) : SlotSet :=
  { set with
    slots := R.slots, selector := R.selector, selected := R.selected, releases := R.releases,
    rotation := R.rotation, guard,
    bindings := set.bindings.map fun binding => { binding with selector := R.selector } }

include R in
theorem mem_ids {x : OpId} : x ∈ (set.footprint ns).ids ↔ x ∈ set.members := R.fits.mem_ids_footprint R.ids

include R in
theorem lt_of_mem {x : OpId} (hx : x ∈ set.members) : x.index < k.ops.size := by
  obtain ⟨i, hi, -⟩ := R.fits.exists_node hx
  exact R.stores.index_lt (Forest.mem_ids_of_mem_nodes hi)

theorem gone_lt {x : OpId} (hx : x ∈ R.early ++ R.late) : x.index < k.ops.size := R.lt_of_mem (R.gone x hx).1

theorem flatMap_second {ms : List Node} (hleaf : ∀ m ∈ ms, m.2.region? = none)
    (hms : ∀ m ∈ ms, m.1 ∉ set.releases.flatten) :
    ms.flatMap R.second.image = ms.filter fun m => m.1 ∉ R.early ++ R.late := by
  unfold second
  rw [(Rewriting.flat_dropping _).flatMap_andThen, R.trade_flat.flatMap_andThen,
    Rewriting.flatMap_dropping_eq_filter _ hleaf,
    R.trade_local.flatMap_of_notMem fun m hm => hms m (List.mem_filter.mp hm).1,
    Rewriting.flatMap_dropping_eq_filter _ fun m hm => hleaf m (List.mem_filter.mp hm).1, List.filter_filter]
  congr 1
  funext m
  simp only [List.mem_append, not_or, Bool.decide_and, Bool.and_comm]

theorem last_mem : R.last ∈ set.slots := List.mem_of_getLast? R.is_last

theorem flatMap_first : (allocNodes set.ty set.slots).flatMap
    (Rewriting.placing (.after R.last.alloc) (allocNodes set.ty R.added)).image =
      allocNodes set.ty (set.slots ++ R.added) := by
  obtain ⟨init, hinit⟩ := List.getLast?_eq_some_iff.mp R.is_last
  have hnodup := (SlotSet.members_disjoint R.fits.members_nodup).1
  rw [hinit, List.map_append, List.nodup_append] at hnodup
  have hspared : ∀ n ∈ allocNodes set.ty init, n.1 ∉ [R.last.alloc] := by
    intro n hn hid
    obtain ⟨slot, hslot, rfl⟩ := SlotSet.mem_allocNodes.mp hn
    exact hnodup.2.2 _ (List.mem_map_of_mem hslot) _ (List.mem_singleton_self _) (List.mem_singleton.mp hid)
  unfold allocNodes at hspared ⊢
  rw [hinit, List.map_append, List.flatMap_append, (Rewriting.local_placing_after _ _).flatMap_of_notMem hspared,
    List.map_singleton, List.flatMap_singleton, Rewriting.image_placing_after rfl, List.map_append, List.map_append]
  simp

def assembly : Assembly k F (set.footprint ns) set.loop l where
  first := .placing (.after R.last.alloc) (allocNodes set.ty R.added)
  point := R.point
  entry := R.guard ++ R.rot ++ [R.select]
  redirects := R.redirects
  value := R.selected
  second := R.second
  stores := R.stores
  lies := R.lies
  opens := R.opens
  first_flat := Rewriting.flat_placing fun n hn => by
    obtain ⟨slot, -, rfl⟩ := SlotSet.mem_allocNodes.mp hn
    rfl
  first_local := by
    apply (Rewriting.local_placing_after _ _).mono
    intro x hx
    rw [List.mem_singleton.mp hx]
    have hmem : (R.last.alloc, .alloc { result := R.last.value, ty := set.ty }) ∈ allocNodes set.ty set.slots :=
      SlotSet.mem_allocNodes.mpr ⟨R.last, R.last_mem, rfl⟩
    exact List.mem_map_of_mem hmem
  first_new := by
    intro n hn m hm
    have hmem : m ∈ allocNodes set.ty (set.slots ++ R.added) := by
      rw [← R.flatMap_first]
      exact List.mem_flatMap.mpr ⟨n, hn, hm⟩
    obtain ⟨slot, hslot, rfl⟩ := SlotSet.mem_allocNodes.mp hmem
    rcases List.mem_append.mp hslot with hold | hnew
    · exact Or.inl (R.mem_ids.mpr (SlotSet.mem_members.mpr (Or.inl (List.mem_map_of_mem hold))))
    · exact Or.inr (R.added_new slot hnew).1
  entry_leaf := by
    intro n hn
    rcases List.mem_append.mp hn with hn | hn
    · exact (R.entry_new n hn).2
    · rw [List.mem_singleton.mp hn]
      rfl
  entry_new := by
    intro n hn
    rcases List.mem_append.mp hn with hn | hn
    · exact (R.entry_new n hn).1
    · rw [List.mem_singleton.mp hn]
      exact R.selector_new
  redirects_flat := R.redirects_flat
  redirects_image := R.redirects_image
  redirects_spares := R.redirects_spares
  second_flat := (Rewriting.flat_dropping _).andThen (R.trade_flat.andThen (Rewriting.flat_dropping _))
  second_local := by
    apply ((Rewriting.local_dropping R.early).andThen (R.trade_local.andThen (Rewriting.local_dropping R.late))).mono
    intro x hx
    rw [R.mem_ids]
    rcases List.mem_append.mp hx with hx | hx
    · exact (R.gone x (List.mem_append_left _ hx)).1
    · rcases List.mem_append.mp hx with hx | hx
      · exact SlotSet.release_mem_members hx
      · exact (R.gone x (List.mem_append_right _ hx)).1

theorem allocs_assembly :
    ((set.footprint ns).allocs.flatMap R.assembly.first.image).flatMap R.assembly.second.image =
      allocNodes set.ty R.slots := by
  change ((allocNodes set.ty set.slots).flatMap (Rewriting.placing _ _).image).flatMap R.second.image = _
  rw [R.flatMap_first, R.flatMap_second, R.kept]
  · intro n hn
    obtain ⟨slot, -, rfl⟩ := SlotSet.mem_allocNodes.mp hn
    rfl
  · intro n hn hrel
    obtain ⟨slot, hslot, rfl⟩ := SlotSet.mem_allocNodes.mp hn
    rcases List.mem_append.mp hslot with hold | hnew
    · have hnodup := R.fits.members_nodup
      unfold SlotSet.members at hnodup
      rw [List.append_assoc, List.append_assoc, List.nodup_append] at hnodup
      refine hnodup.2.2 _ (List.mem_map_of_mem hold) _ ?_ rfl
      exact List.mem_append_right _ (List.mem_append_right _ hrel)
    · exact Nat.not_lt.mpr (R.added_new slot hnew).1 (R.lt_of_mem (SlotSet.release_mem_members hrel))

theorem releases_assembly :
    List.Forall₂ (fun ns ops => ns.flatMap R.assembly.second.image = releaseNodes R.slots ops)
      (set.footprint ns).releases R.releases := by
  obtain ⟨hlength, htraded⟩ := List.forall₂_iff_zip.mp R.traded
  refine List.forall₂_iff_zip.mpr ⟨hlength, fun {ms ops} hmem => ?_⟩
  obtain ⟨hops, heq⟩ := htraded hmem
  obtain ⟨old, hold, rfl⟩ := List.mem_map.mp (List.of_mem_zip hmem).1
  change (releaseNodes set.slots old).flatMap R.second.image = releaseNodes R.slots ops
  unfold second
  rw [(Rewriting.flat_dropping _).flatMap_andThen, (Rewriting.local_dropping _).flatMap_of_notMem,
    R.trade_flat.flatMap_andThen, heq, (Rewriting.local_dropping _).flatMap_of_notMem]
  · intro n hn hlate
    have hx : n.1 ∈ ops := by
      rw [← map_fst_releaseNodes hops]
      exact List.mem_map_of_mem hn
    have hgone := List.mem_append_right R.early hlate
    rcases R.origin ops (List.of_mem_zip hmem).2 _ hx with hrel | hnew
    · exact (R.gone _ hgone).2 hrel
    · exact Nat.not_lt.mpr hnew (R.gone_lt hgone)
  · intro n hn hearly
    have hx : n.1 ∈ old := by
      rw [← map_fst_releaseNodes (R.fits.releases old hold).1]
      exact List.mem_map_of_mem hn
    exact (R.gone _ (List.mem_append_left _ hearly)).2 (List.mem_flatten.mpr ⟨old, hold, hx⟩)

theorem prelude_assembly : (set.footprint ns).prelude.flatMap R.assembly.second.image = [] := by
  have hprelude : ∀ n ∈ set.selectNode :: ns, n.1 ∈ set.selector :: set.rotation.ops := by
    intro n hn
    rw [← R.ids]
    exact List.mem_map_of_mem hn
  change (set.selectNode :: ns).flatMap R.second.image = []
  rw [R.flatMap_second, List.filter_eq_nil_iff]
  · intro n hn
    exact fun hkept => of_decide_eq_true hkept (R.prelude_gone _ (hprelude n hn))
  · exact fun n hn => R.lies.leaf n (Footprint.mem_nodes.mpr (Or.inr (Or.inr hn)))
  · exact fun n hn => (R.gone _ (R.prelude_gone _ (hprelude n hn))).2

theorem map_use_result (guard : Option Guard) :
    (R.result guard).bindings.map Binding.use = set.bindings.map Binding.use := List.map_map

theorem result_members (guard : Option Guard) {x : OpId} (hx : x ∈ (R.result guard).members) :
    x ∈ (set.footprint ns).ids ∨ k.ops.size ≤ x.index := by
  rw [R.mem_ids]
  rcases SlotSet.mem_members.mp hx with hx | hx | hx | ⟨ops, hops, hx⟩
  · obtain ⟨slot, hslot, rfl⟩ := List.mem_map.mp hx
    have hmem : (slot.alloc, .alloc { result := slot.value, ty := set.ty }) ∈ allocNodes set.ty R.slots :=
      SlotSet.mem_allocNodes.mpr ⟨slot, hslot, rfl⟩
    rw [← R.kept] at hmem
    obtain ⟨old, hold, heq⟩ := SlotSet.mem_allocNodes.mp (List.mem_filter.mp hmem).1
    have halloc : slot.alloc = old.alloc := congrArg Prod.fst heq
    rw [halloc]
    rcases List.mem_append.mp hold with hold | hnew
    · exact Or.inl (SlotSet.mem_members.mpr (Or.inl (List.mem_map_of_mem hold)))
    · exact Or.inr (R.added_new old hnew).1
  · rw [hx]
    exact Or.inr R.selector_new
  · have hrot : x ∈ R.rot.map Prod.fst := R.rot_ids ▸ hx
    obtain ⟨n, hn, rfl⟩ := List.mem_map.mp hrot
    exact Or.inr (R.entry_new n (List.mem_append_right _ hn)).1
  · exact (R.origin ops hops x hx).imp SlotSet.release_mem_members id

theorem result_formed (guard : Option Guard) : (R.result guard).Formed where
  inhabited := R.inhabited
  ordinals := R.ordinals
  lengths ops hops := by
    obtain ⟨ms, -, hlength, -⟩ := exists_of_forall₂ R.traded.flip hops
    exact hlength
  factor := R.rot_factor
  named binding hbinding := by
    obtain ⟨old, -, rfl⟩ := List.mem_map.mp hbinding
    rfl
  bindings_nodup := by
    rw [R.map_use_result]
    exact R.fits.bindings_nodup

theorem installs {k' : Kernel} (hk : Kernel.Becomes k k' F R.assembly.rewriting) (hsc : F.Scoped)
    (guard : Option Guard) (htyped : k'.typeOf? R.selected = some (.buffer set.ty)) :
    Kernel.Installs k k' R.assembly.exchange (set.footprint ns) (R.result guard) l R.guard R.rot := by
  refine Kernel.installs_of_assembly (R.result guard) R.assembly hk (R.stores.knows hsc)
    (R.result_formed guard) rfl rfl R.guarded R.rot_ids.symm R.rotates R.allocs_assembly R.releases_assembly
    R.prelude_assembly (fun x => R.result_members guard) R.selected_from ?_ R.rot_new htyped ?_
  · intro slot hslot
    refine (R.slots_from slot hslot).imp id fun ⟨hsel, old, hold, heq⟩ => ⟨hsel, ?_⟩
    have hmem : (old.alloc, .alloc { result := old.value, ty := set.ty }) ∈ allocNodes set.ty set.slots :=
      SlotSet.mem_allocNodes.mpr ⟨old, hold, rfl⟩
    exact ⟨_, Footprint.mem_nodes.mpr (Or.inl hmem), congrArg some heq⟩
  · intro use
    rw [R.map_use_result]
    exact R.fits.mem_bindings_iff R.stores hsc R.ids use

/-- The edits of a resizing, one after the other; `H` is where the releases are traded. -/
theorem becomes {k' : Kernel} {H : Forest} (hk : k.Extends k')
    (hH : (F.refitted set.ty R.last.alloc R.added R.point (R.guard ++ R.rot ++ [R.select])).rewrite
      (R.redirects.andThen (.dropping R.early)) = H)
    (hstores : k'.Stores ((H.rewrite R.trade).rewrite (.dropping R.late))) :
    Kernel.Becomes k k' F R.assembly.rewriting := by
  refine { hk with stores := ?_, flat := R.assembly.flat_rewriting }
  have hforest : F.rewrite R.assembly.rewriting = (H.rewrite R.trade).rewrite (.dropping R.late) := by
    rw [← hH]
    change F.rewrite ((Rewriting.placing _ _).andThen
      ((Rewriting.placing _ _).andThen (R.redirects.andThen R.second))) = _
    unfold second Forest.refitted
    simp only [← Forest.rewrite_rewrite]
    rfl
  rw [hforest]
  exact hstores

end Resizing
end SlotRotation
