import Mathlib.Data.List.Pairwise
import SlotRotation.Proofs.Opening
import SlotRotation.Proofs.Trades
import SlotRotation.Proofs.Yields

/-! The ops that belong to one buffer in one loop: those that allocate it, those that release it, and those at the
top of the loop body that select from it. A buffer that is not expanded has one allocation and no selection. An
exchange of the footprint of a buffer for that of a set of slots yields the set. -/

namespace SlotRotation

structure Footprint where
  value : ValueId
  allocs : List Node
  releases : List (List Node)
  prelude : List Node

namespace Footprint

def nodes (P : Footprint) : List Node := P.allocs ++ P.releases.flatten ++ P.prelude

def ids (P : Footprint) : List OpId := P.nodes.map Prod.fst

variable {P : Footprint} {n : Node}

theorem mem_nodes : n ∈ P.nodes ↔ n ∈ P.allocs ∨ (∃ ns ∈ P.releases, n ∈ ns) ∨ n ∈ P.prelude := by
  simp only [nodes, List.mem_append, List.mem_flatten, or_assoc]

theorem mem_ids_of_mem_nodes (h : n ∈ P.nodes) : n.1 ∈ P.ids := List.mem_map_of_mem h

/-- The footprint is in a forest, around the loop `a`, and nothing but accesses to its value reads from it. -/
structure Lies (P : Footprint) (F : Forest) (a : OpId) (l : Loop) : Prop where
  nodes : ∀ n ∈ P.nodes, n ∈ F.nodes
  nodup : P.ids.Nodup
  leaf : ∀ n ∈ P.nodes, n.2.region? = none
  no_barrier : ∀ n ∈ P.nodes, n.2 ≠ .barrier
  loop : (a, .loop l) ∈ F.nodes
  outside : ∀ n ∈ P.allocs, F.InScope n.1 a
  released : ∀ n ∈ P.allocs, ∀ ns ∈ P.releases, ∀ m ∈ ns, F.InScope n.1 m.1
  defined : ∃ n ∈ P.nodes, n.2.result? = some P.value
  accessed : ∀ use ∈ F.uses P.value, use.user ∉ P.ids → F.InScope a use.user
  hidden : ∀ n ∈ P.nodes, ∀ v, n.2.result? = some v →
    v = P.value ∨ ∀ m ∈ F.nodes, m.1 ∉ P.ids → v ∉ m.2.operands
  reads : ∀ n ∈ P.nodes, ∀ w ∈ n.2.operands,
    w = P.value ∨ (∃ m ∈ P.nodes, m.2.result? = some w) ∨ w = l.induction ∨ w = l.lower ∨ w = l.step

theorem Lies.mem_of_id {F : Forest} {a : OpId} {l : Loop} (h : P.Lies F a l) (hF : F.ids.Nodup) (hn : n ∈ F.nodes)
    (hid : n.1 ∈ P.ids) : n ∈ P.nodes := by
  obtain ⟨m, hm, heq⟩ := List.mem_map.mp hid
  obtain rfl : m = n := List.inj_on_of_nodup_map hF (h.nodes m hm) hn heq
  exact hm

end Footprint

theorem exists_of_forall₂ {α β : Type} {r : α → β → Prop} {as : List α} {bs : List β} (h : List.Forall₂ r as bs)
    {a : α} (ha : a ∈ as) : ∃ b ∈ bs, r a b := by
  induction h with
  | nil => simp at ha
  | @cons a' b' as bs hone _ ih =>
    rcases List.mem_cons.mp ha with rfl | ha
    · exact ⟨b', List.mem_cons_self .., hone⟩
    · obtain ⟨b, hb, hab⟩ := ih ha
      exact ⟨b, List.mem_cons_of_mem _ hb, hab⟩

structure Exchange.Replaces {F : Forest} (E : Exchange F) (P : Footprint) (set : SlotSet) : Prop where
  keys : E.keys = P.ids
  allocs : P.allocs.flatMap E.rewriting.image = allocNodes set.ty set.slots
  releases : List.Forall₂ (fun ns ops => ns.flatMap E.rewriting.image = releaseNodes set.slots ops)
    P.releases set.releases
  prelude : P.prelude.flatMap E.rewriting.image = []

namespace Exchange.Replaces

variable {F : Forest} {E : Exchange F} {P : Footprint} {set : SlotSet} {a : OpId} {l : Loop}

theorem mem_table (h : E.Replaces P set) (hF : F.ids.Nodup) (hP : P.Lies F a l) {e : OpId × List Node}
    (he : e ∈ E.table) : ∃ m ∈ P.nodes, m.1 = e.1 ∧ E.rewriting.image m = e.2 := by
  have hkey : e.1 ∈ E.keys := List.mem_map_of_mem he
  rw [h.keys] at hkey
  obtain ⟨m, hm, heq⟩ := List.mem_map.mp hkey
  refine ⟨m, hm, heq, image_key (hP.nodes m hm) ?_ hF⟩
  rw [heq]
  exact he

theorem exists_entry (h : E.Replaces P set) (hF : F.ids.Nodup) (hP : P.Lies F a l) {m n : Node} (hm : m ∈ P.nodes)
    (hn : n ∈ E.rewriting.image m) : ∃ e ∈ E.table, n ∈ e.2 := by
  have hkey : m.1 ∈ E.keys := by
    rw [h.keys]
    exact Footprint.mem_ids_of_mem_nodes hm
  obtain ⟨e, he, heq⟩ := List.mem_map.mp hkey
  refine ⟨e, he, ?_⟩
  rwa [image_key (hP.nodes m hm) (heq ▸ he : (m.1, e.2) ∈ E.table) hF] at hn

theorem exists_release (h : E.Replaces P set) {ns : List Node} (hns : ns ∈ P.releases) :
    ∃ ops ∈ set.releases, ns.flatMap E.rewriting.image = releaseNodes set.slots ops :=
  exists_of_forall₂ h.releases hns

theorem of_release (h : E.Replaces P set) {ops : List OpId} (hops : ops ∈ set.releases) :
    ∃ ns ∈ P.releases, ns.flatMap E.rewriting.image = releaseNodes set.slots ops :=
  exists_of_forall₂ h.releases.flip hops

theorem table_cases (h : E.Replaces P set) (hF : F.ids.Nodup) (hP : P.Lies F a l) {e : OpId × List Node}
    (he : e ∈ E.table) {n : Node} (hn : n ∈ e.2) :
    (n ∈ allocNodes set.ty set.slots ∧ ∃ m ∈ P.allocs, m.1 = e.1) ∨
      ((∃ ops ∈ set.releases, n ∈ releaseNodes set.slots ops) ∧ ∃ ns ∈ P.releases, ∃ m ∈ ns, m.1 = e.1) := by
  obtain ⟨m, hm, hid, himage⟩ := h.mem_table hF hP he
  rw [← himage] at hn
  rcases Footprint.mem_nodes.mp hm with hm | ⟨ns, hns, hm⟩ | hm
  · refine Or.inl ⟨?_, m, hm, hid⟩
    rw [← h.allocs]
    exact List.mem_flatMap.mpr ⟨m, hm, hn⟩
  · obtain ⟨ops, hops, heq⟩ := h.exists_release hns
    refine Or.inr ⟨⟨ops, hops, ?_⟩, ns, hns, m, hm, hid⟩
    rw [← heq]
    exact List.mem_flatMap.mpr ⟨m, hm, hn⟩
  · have hnil : n ∈ P.prelude.flatMap E.rewriting.image := List.mem_flatMap.mpr ⟨m, hm, hn⟩
    rw [h.prelude] at hnil
    simp at hnil

theorem flatMap_releases (h : E.Replaces P set) :
    P.releases.flatten.flatMap E.rewriting.image = (set.releases.map (releaseNodes set.slots)).flatten := by
  have heq : P.releases.map (fun ns => ns.flatMap E.rewriting.image) =
      set.releases.map (releaseNodes set.slots) := by
    rw [← List.forall₂_eq_eq_eq, List.forall₂_map_left_iff, List.forall₂_map_right_iff]
    exact h.releases
  rw [← heq, List.flatMap_def, List.map_flatten, List.flatten_flatten, List.map_map]
  rfl

theorem alloc_not_release {slots : List Slot} {ty : BufferType} {ops : List OpId} {n : Node}
    (hn : n ∈ allocNodes ty slots) (hr : n ∈ releaseNodes slots ops) : False := by
  obtain ⟨slot, -, rfl⟩ := SlotSet.mem_allocNodes.mp hn
  obtain ⟨i, slot', -, -, heq⟩ := SlotSet.mem_releaseNodes.mp hr
  cases heq

end Exchange.Replaces

structure SlotSet.Formed (set : SlotSet) : Prop where
  inhabited : set.slots ≠ []
  ordinals : set.slots.map Slot.ordinal = List.range set.slots.length
  lengths : ∀ ops ∈ set.releases, ops.length = set.slots.length
  factor : set.rotation.factor = set.slots.length
  named : ∀ binding ∈ set.bindings, binding.selector = set.selector
  bindings_nodup : (set.bindings.map Binding.use).Nodup

theorem Forest.nodup_images {F : Forest} {R : Rewriting} (hP : F.Plain) (hids : (F.rewrite R).ids.Nodup)
    {ns : List Node} (hns : ns.Nodup) (hsub : ∀ n ∈ ns, n ∈ F.nodes) :
    ((ns.flatMap R.image).map Prod.fst).Nodup := by
  rw [ids, nodes_rewrite hP, List.map_flatMap, List.nodup_flatMap] at hids
  rw [List.map_flatMap, List.nodup_flatMap]
  refine ⟨fun n hn => hids.1 n (hsub n hn), hns.pairwise_of_forall_ne fun m hm n hn hne => ?_⟩
  have hsymm : Std.Symm (Function.onFun List.Disjoint fun n => (R.image n).map Prod.fst) :=
    ⟨fun _ _ h _ hx hy => h hy hx⟩
  exact hids.2.forall (hsub m hm) (hsub n hn) hne

theorem Exchange.Replaces.members_nodup {F : Forest} {E : Exchange F} {P : Footprint} {set : SlotSet} {l : Loop}
    {guard rot : List Node} (h : E.Replaces P set) (hP : F.Plain) (hids : E.result.ids.Nodup)
    (hlies : P.Lies F set.loop l) (hlength : ∀ ops ∈ set.releases, ops.length = set.slots.length)
    (hentry : E.entry = guard ++ rot ++ [set.selectNode]) (hrot : rot.map Prod.fst = set.rotation.ops) :
    set.members.Nodup := by
  obtain ⟨c, hc, hhost⟩ := E.anchored.exists_host
  have hcP : c ∉ P.nodes := by
    intro hmem
    refine E.kept c hc hhost ?_
    have hkeys : E.table.map Prod.fst = P.ids := h.keys
    rw [hkeys]
    exact Footprint.mem_ids_of_mem_nodes hmem
  have hnodes : (P.nodes ++ [c]).Nodup :=
    List.nodup_append.mpr ⟨hlies.nodup.of_map _, List.nodup_singleton c, fun x hx y hy hxy =>
      hcP (List.mem_singleton.mp hy ▸ hxy ▸ hx)⟩
  have hsub : ∀ n ∈ P.nodes ++ [c], n ∈ F.nodes := by
    intro n hn
    rcases List.mem_append.mp hn with hn | hn
    · exact hlies.nodes n hn
    · rw [List.mem_singleton.mp hn]
      exact hc
  have himages := Forest.nodup_images hP hids hnodes hsub
  rw [List.flatMap_append, Footprint.nodes, List.flatMap_append, List.flatMap_append, h.allocs, h.prelude,
    h.flatMap_releases, List.flatMap_singleton, E.image_host hc hhost, hentry] at himages
  have hallocs : (allocNodes set.ty set.slots).map Prod.fst = set.slots.map Slot.alloc := List.map_map
  rw [List.map_append, List.map_append, List.map_append, List.map_cons, List.map_append, List.map_append,
    map_fst_releases hlength, hallocs, hrot] at himages
  have hperm : set.members.Perm
      (set.slots.map Slot.alloc ++ set.releases.flatten ++ [] ++ (set.rotation.ops ++ [set.selector])) := by
    rw [List.perm_iff_count]
    intro x
    simp only [SlotSet.members, List.count_append, List.count_nil]
    omega
  refine hperm.nodup_iff.mpr (himages.sublist (List.Sublist.append (List.Sublist.refl _) ?_))
  exact List.Sublist.cons _ (by rw [List.append_assoc]; exact List.sublist_append_right _ _)

/-- An exchange of a footprint for a set yields the set, if the new values are new. -/
theorem Exchange.Replaces.yields {F : Forest} {E : Exchange F} {P : Footprint} {set : SlotSet} {l : Loop}
    {guard rot : List Node} (h : E.Replaces P set) (hPlain : F.Plain) (hF : F.ids.Nodup) (hids' : E.result.ids.Nodup)
    (hP : P.Lies F set.loop l) (hset : set.Formed)
    (hhost : ∀ n ∈ F.nodes, Forest.Hosts n E.point → n.1 = set.loop ∨ F.Leads set.loop n.1)
    (hentry : E.entry = guard ++ rot ++ [set.selectNode]) (hguard : ∀ n ∈ guard, n.2 = .barrier)
    (hids : rot.map Prod.fst = set.rotation.ops) (hcomputes : Computes l rot set.rotation.value)
    (hrename : ∀ w, E.rename w = if w = P.value then set.selected else w)
    (hrot : ∀ n ∈ rot, ∀ v, n.2.result? = some v → ∀ m ∈ F.nodes, v ∉ m.2.operands)
    (hselected : set.selected = P.value ∨ ∀ m ∈ F.nodes, set.selected ∉ m.2.operands)
    (hslots : ∀ slot ∈ set.slots, ∀ m ∈ F.nodes, m.1 ∉ P.ids → slot.value ∉ m.2.operands)
    (hbindings : ∀ use, use ∈ set.bindings.map Binding.use ↔ use ∈ F.uses P.value ∧ use.user ∉ P.ids) :
    E.Yields set P.value l guard rot where
  inhabited := hset.inhabited
  ordinals := hset.ordinals
  members_nodup := h.members_nodup hPlain hids' hP hset.lengths hentry hids
  lengths := hset.lengths
  factor := hset.factor
  named := hset.named
  bindings_nodup := hset.bindings_nodup
  loop := hP.loop
  host := hhost
  entry := hentry
  guarded := hguard
  rot_ids := hids
  computes := hcomputes
  rename := hrename
  old_defined := by
    obtain ⟨n, hn, hres⟩ := hP.defined
    exact ⟨n, hP.nodes n hn, h.keys ▸ Footprint.mem_ids_of_mem_nodes hn, hres⟩
  slots_in := by
    intro n hn
    rw [← h.allocs] at hn
    obtain ⟨m, hm, hn⟩ := List.mem_flatMap.mp hn
    exact h.exists_entry hF hP (Footprint.mem_nodes.mpr (Or.inl hm)) hn
  releases_in := by
    intro ops hops n hn
    obtain ⟨ns, hns, heq⟩ := h.of_release hops
    rw [← heq] at hn
    obtain ⟨m, hm, hn⟩ := List.mem_flatMap.mp hn
    exact h.exists_entry hF hP (Footprint.mem_nodes.mpr (Or.inr (Or.inl ⟨ns, hns, hm⟩))) hn
  table_cases := by
    intro e he n hn
    exact (h.table_cases hF hP he hn).imp And.left And.left
  slots_outside := by
    intro e he n hn halloc
    rcases h.table_cases hF hP he hn with ⟨-, m, hm, hid⟩ | ⟨⟨ops, -, hr⟩, -⟩
    · rw [← hid]
      exact hP.outside m hm
    · exact (alloc_not_release halloc hr).elim
  slots_released := by
    intro e he n hn halloc e' he' n' hn' hrelease
    obtain ⟨ops, -, hr⟩ := hrelease
    rcases h.table_cases hF hP he hn with ⟨-, m, hm, hid⟩ | ⟨⟨ops', -, hr'⟩, -⟩
    · rcases h.table_cases hF hP he' hn' with ⟨halloc', -⟩ | ⟨-, ns, hns, m', hm', hid'⟩
      · exact (alloc_not_release halloc' hr).elim
      · rw [← hid, ← hid']
        exact hP.released m hm ns hns m' hm'
    · exact (alloc_not_release halloc hr').elim
  rot_fresh := hrot
  selected_fresh := hselected
  slots_hidden := by
    rw [h.keys]
    exact hslots
  bindings := by
    rw [h.keys]
    exact hbindings
  inner := by
    rw [h.keys]
    exact hP.accessed
  keys_private := by
    rw [h.keys]
    intro n hn hkey v hv
    exact hP.hidden n (hP.mem_of_id hF hn hkey) v hv
  keys_read := by
    rw [h.keys]
    intro n hn hkey w hw
    rcases hP.reads n (hP.mem_of_id hF hn hkey) w hw with heq | ⟨m, hm, hres⟩ | hbound
    · exact Or.inl heq
    · exact Or.inr (Or.inl ⟨m, hP.nodes m hm, Footprint.mem_ids_of_mem_nodes hm, hres⟩)
    · exact Or.inr (Or.inr hbound)

def SlotSet.footprint (set : SlotSet) (ns : List Node) : Footprint where
  value := set.selected
  allocs := allocNodes set.ty set.slots
  releases := set.releases.map (releaseNodes set.slots)
  prelude := set.selectNode :: ns

namespace SlotSet.Fits

variable {set : SlotSet} {F : Forest} {ns : List Node} {k : Kernel}

theorem ids_footprint (h : set.Fits F) (hns : ns.map Prod.fst = set.rotation.ops) : (set.footprint ns).ids =
    set.slots.map Slot.alloc ++ set.releases.flatten ++ set.selector :: set.rotation.ops := by
  have hallocs : (allocNodes set.ty set.slots).map Prod.fst = set.slots.map Slot.alloc := List.map_map
  rw [Footprint.ids, Footprint.nodes, List.map_append, List.map_append, SlotSet.footprint, hallocs,
    map_fst_releases fun ops hops => (h.releases ops hops).1, List.map_cons, hns]
  rfl

theorem perm_footprint (h : set.Fits F) (hns : ns.map Prod.fst = set.rotation.ops) :
    (set.footprint ns).ids.Perm set.members := by
  rw [h.ids_footprint hns, List.perm_iff_count]
  intro x
  simp only [SlotSet.members, List.count_append, List.count_cons, List.count_nil]
  omega

theorem mem_ids_footprint (h : set.Fits F) (hns : ns.map Prod.fst = set.rotation.ops) {x : OpId} :
    x ∈ (set.footprint ns).ids ↔ x ∈ set.members := (h.perm_footprint hns).mem_iff

theorem footprint_nodes (h : set.Fits F) (hnodes : ∀ n ∈ ns, n ∈ F.nodes) :
    ∀ n ∈ (set.footprint ns).nodes, n ∈ F.nodes := by
  intro n hn
  rcases Footprint.mem_nodes.mp hn with hn | ⟨ms, hms, hn⟩ | hn
  · exact h.allocs n hn
  · obtain ⟨ops, hops, rfl⟩ := List.mem_map.mp hms
    exact (h.releases ops hops).2 n hn
  · rcases List.mem_cons.mp hn with rfl | hn
    · exact h.selects
    · exact hnodes n hn

theorem mem_footprint_of_id (h : set.Fits F) (hF : F.ids.Nodup) (hnodes : ∀ n ∈ ns, n ∈ F.nodes)
    (hns : ns.map Prod.fst = set.rotation.ops) {n : Node} (hn : n ∈ F.nodes) (hx : n.1 ∈ set.members) :
    n ∈ (set.footprint ns).nodes := by
  obtain ⟨m, hm, heq⟩ := List.mem_map.mp ((h.mem_ids_footprint hns).mpr hx)
  have hmF : (n.1, m.2) ∈ F.nodes := heq ▸ h.footprint_nodes hnodes m hm
  have hmn : m = n := Prod.ext heq (Forest.node_unique hF hmF hn)
  exact hmn ▸ hm

theorem binding_notMem (h : set.Fits F) (hS : k.Stores F) (hsc : F.Scoped) {use : Use}
    (huse : use ∈ F.uses set.selected) : use.user ∉ set.members := by
  obtain ⟨i, hi, hop⟩ := Forest.mem_uses.mp huse
  have hread := List.mem_of_getElem? hop
  obtain ⟨d, hd, hres, hscope⟩ := hsc _ hi _ hread
  rw [hS.result_unique hd h.selects hres rfl] at hscope
  intro hx
  rcases SlotSet.mem_members.mp hx with hx | hx | hx | ⟨ops, hops, hx⟩
  · obtain ⟨slot, hslot, heq⟩ := List.mem_map.mp hx
    have hinstr := h.instr_of_slot hS.nodup hi hslot heq.symm
    change i = _ at hinstr
    rw [hinstr] at hread
    cases hread
  · exact Forest.InScope.irrefl hS.nodup (hx ▸ hscope)
  · exact Forest.InScope.irrefl hS.nodup ((h.ahead _ hx).trans hS.nodup hscope)
  · obtain ⟨slot, hslot, hnode⟩ := h.exists_release hops hx
    rw [Forest.node_unique hS.nodup hi hnode] at hread
    have halloc := h.allocs _ (SlotSet.mem_allocNodes.mpr ⟨slot, hslot, rfl⟩)
    have heq := hS.result_unique halloc h.selects rfl (congrArg some (List.mem_singleton.mp hread))
    cases congrArg Prod.snd heq

theorem mem_bindings_iff (h : set.Fits F) (hS : k.Stores F) (hsc : F.Scoped)
    (hns : ns.map Prod.fst = set.rotation.ops) (use : Use) :
    use ∈ set.bindings.map Binding.use ↔
      use ∈ F.uses (set.footprint ns).value ∧ use.user ∉ (set.footprint ns).ids := by
  rw [← h.selected_uses, h.mem_ids_footprint hns]
  exact ⟨fun huse => ⟨huse, h.binding_notMem hS hsc huse⟩, And.left⟩

theorem lies (h : set.Fits F) (hS : k.Stores F) (hsc : F.Scoped) {l : Loop} (hl : (set.loop, .loop l) ∈ F.nodes)
    (hnodes : ∀ n ∈ ns, n ∈ F.nodes) (hns : ns.map Prod.fst = set.rotation.ops) :
    (set.footprint ns).Lies F set.loop l := by
  have hmem := fun n hn => h.mem_footprint_of_id hS.nodup hnodes hns (n := n) hn
  have hnode := h.footprint_nodes hnodes
  have hmember : ∀ n ∈ (set.footprint ns).nodes, n.1 ∈ set.members := fun n hn =>
    (h.mem_ids_footprint hns).mp (Footprint.mem_ids_of_mem_nodes hn)
  refine ⟨hnode, (h.perm_footprint hns).nodup_iff.mpr h.members_nodup,
    fun n hn => h.leaf_of_mem hS.nodup (hnode n hn) (hmember n hn),
    fun n hn => h.no_barrier hS.nodup (hnode n hn) (hmember n hn), hl, ?_, ?_,
    ⟨_, hmem _ h.selects (SlotSet.mem_members.mpr (Or.inr (Or.inl rfl))), rfl⟩, ?_, ?_, ?_⟩
  · intro n hn
    obtain ⟨slot, hslot, rfl⟩ := SlotSet.mem_allocNodes.mp hn
    exact h.outside slot hslot
  · intro n hn ms hms m hm
    obtain ⟨slot, hslot, rfl⟩ := SlotSet.mem_allocNodes.mp hn
    obtain ⟨ops, hops, rfl⟩ := List.mem_map.mp hms
    obtain ⟨i, -, -, hop, -⟩ := SlotSet.mem_releaseNodes.mp hm
    exact h.released slot hslot ops hops _ (List.mem_of_getElem? hop)
  · intro use huse _
    obtain ⟨i, hi, hop⟩ := Forest.mem_uses.mp huse
    obtain ⟨d, hd, hres, hscope⟩ := hsc _ hi _ (List.mem_of_getElem? hop)
    rw [hS.result_unique hd h.selects hres rfl] at hscope
    exact ((h.inside _ List.mem_cons_self).inScope hS.nodup).trans hS.nodup hscope
  · intro n hn v hv
    by_cases hne : v = set.selected
    · exact Or.inl hne
    · refine Or.inr fun m hm hid hread => hid ((h.mem_ids_footprint hns).mpr ?_)
      obtain ⟨j, hj⟩ := List.mem_iff_getElem?.mp hread
      have huse : (⟨m.1, j⟩ : Use) ∈ F.uses v := Forest.mem_uses.mpr ⟨m.2, hm, hj⟩
      exact h.user_mem hS.nodup ⟨n, hnode n hn, hmember n hn, hv⟩ hne huse
  · intro n hn w hw
    rcases h.operand_cases hS.nodup (hnode n hn) (hmember n hn) hw with ⟨m, hm, hx, hres⟩ | ⟨l', hl', hw⟩
    · exact Or.inr (Or.inl ⟨m, hmem m hm hx, hres⟩)
    · cases Forest.node_unique hS.nodup hl hl'
      exact Or.inr (Or.inr hw)

end SlotSet.Fits
end SlotRotation
