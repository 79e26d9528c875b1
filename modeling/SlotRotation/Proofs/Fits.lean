import SlotRotation.Proofs.Exchange
import SlotRotation.Proofs.SlotEdits

/-! What it means that a set of slots is in place in a forest, and that a rewriting which leaves its ops alone keeps
it in place. -/

namespace SlotRotation

def Forest.ControlFree (F : Forest) (v : ValueId) : Prop :=
  ∀ a l, (a, .loop l) ∈ F.nodes → l.lower ≠ v ∧ l.step ≠ v

/-- Ops that compute a value from the bounds of a loop, each from what stands ahead of it. -/
structure Computes (l : Loop) (ns : List Node) (v : ValueId) : Prop where
  leaf : ∀ n ∈ ns, n.2.region? = none
  no_barrier : ∀ n ∈ ns, n.2 ≠ .barrier
  operands : ∀ as m bs, ns = as ++ m :: bs → ∀ w ∈ m.2.operands,
    w = l.induction ∨ w = l.lower ∨ w = l.step ∨ ∃ d ∈ as, d.2.result? = some w
  value : ∃ m ∈ ns, m.2.result? = some v

namespace SlotSet

def selectNode (set : SlotSet) : Node :=
  (set.selector, .selectSlot set.selected set.slotValues set.rotation.value)

def Owns (set : SlotSet) (F : Forest) (v : ValueId) : Prop :=
  ∃ n ∈ F.nodes, n.1 ∈ set.members ∧ n.2.result? = some v

structure Fits (set : SlotSet) (F : Forest) : Prop where
  inhabited : set.slots ≠ []
  ordinals : set.slots.map Slot.ordinal = List.range set.slots.length
  members_nodup : set.members.Nodup
  allocs : ∀ n ∈ allocNodes set.ty set.slots, n ∈ F.nodes
  selects : set.selectNode ∈ F.nodes
  releases : ∀ ops ∈ set.releases, ops.length = set.slots.length ∧ ∀ n ∈ releaseNodes set.slots ops, n ∈ F.nodes
  rotates : ∃ l ns, (set.loop, .loop l) ∈ F.nodes ∧ (∀ n ∈ ns, n ∈ F.nodes) ∧ ns.map Prod.fst = set.rotation.ops ∧
    Computes l ns set.rotation.value
  factor : set.rotation.factor = set.slots.length
  inside : ∀ x ∈ set.selector :: set.rotation.ops, F.Child set.loop x
  ahead : ∀ x ∈ set.rotation.ops, F.InScope x set.selector
  outside : ∀ slot ∈ set.slots, F.InScope slot.alloc set.loop
  released : ∀ slot ∈ set.slots, ∀ ops ∈ set.releases, ∀ op ∈ ops, F.InScope slot.alloc op
  named : ∀ binding ∈ set.bindings, binding.selector = set.selector
  bindings_nodup : (set.bindings.map Binding.use).Nodup
  selected_uses : ∀ use, use ∈ F.uses set.selected ↔ use ∈ set.bindings.map Binding.use
  slot_uses : ∀ i slot, set.slots[i]? = some slot → ∀ use, use ∈ F.uses slot.value ↔
    use = ⟨set.selector, i⟩ ∨ ∃ ops ∈ set.releases, ops[i]? = some use.user ∧ use.operand = 0
  rotation_uses : ∀ n ∈ F.nodes, n.1 ∈ set.rotation.ops → ∀ v, n.2.result? = some v →
    ∀ use ∈ F.uses v, use.user ∈ set.selector :: set.rotation.ops

variable {set : SlotSet} {F : Forest}

theorem mem_members {x : OpId} : x ∈ set.members ↔
    x ∈ set.slots.map Slot.alloc ∨ x = set.selector ∨ x ∈ set.rotation.ops ∨ ∃ ops ∈ set.releases, x ∈ ops := by
  simp only [members, List.mem_append, List.mem_singleton, List.mem_flatten, or_assoc]

theorem alloc_mem_members {slot : Slot} (hslot : slot ∈ set.slots) : slot.alloc ∈ set.members :=
  mem_members.mpr (Or.inl (List.mem_map_of_mem hslot))

theorem selector_mem_members : set.selector ∈ set.members := mem_members.mpr (Or.inr (Or.inl rfl))

theorem rotation_mem_members {x : OpId} (hx : x ∈ set.rotation.ops) : x ∈ set.members :=
  mem_members.mpr (Or.inr (Or.inr (Or.inl hx)))

theorem release_mem_members {x : OpId} (hx : x ∈ set.releases.flatten) : x ∈ set.members :=
  List.mem_append_right _ hx

theorem members_disjoint (h : set.members.Nodup) :
    (set.slots.map Slot.alloc).Nodup ∧ (∀ slot ∈ set.slots, slot.alloc ≠ set.selector) ∧
      (∀ slot ∈ set.slots, slot.alloc ∉ set.rotation.ops) ∧ set.selector ∉ set.rotation.ops := by
  have hsplit := h
  simp only [members, List.append_assoc] at hsplit
  obtain ⟨hslots, hrest, hdis⟩ := List.nodup_append.mp hsplit
  obtain ⟨-, -, hdis'⟩ := List.nodup_append.mp hrest
  refine ⟨hslots, fun slot hslot heq => ?_, fun slot hslot hmem => ?_, fun hmem => ?_⟩
  · exact hdis slot.alloc (List.mem_map_of_mem hslot) set.selector (by simp) heq
  · exact hdis slot.alloc (List.mem_map_of_mem hslot) slot.alloc (by simp [hmem]) rfl
  · exact hdis' set.selector (by simp) set.selector (by simp [hmem]) rfl

theorem mem_allocNodes {ty : BufferType} {slots : List Slot} {n : Node} :
    n ∈ allocNodes ty slots ↔ ∃ slot ∈ slots, n = (slot.alloc, .alloc { result := slot.value, ty }) := by
  simp only [allocNodes, List.mem_map, eq_comm]

theorem mem_releaseNodes {slots : List Slot} {ops : List OpId} {n : Node} :
    n ∈ releaseNodes slots ops ↔
      ∃ (i : Nat) (slot : Slot), slots[i]? = some slot ∧ ops[i]? = some n.1 ∧ n.2 = .dealloc slot.value := by
  rw [releaseNodes, List.mem_iff_getElem?]
  constructor
  · rintro ⟨i, hi⟩
    obtain ⟨slot, op, hslot, hop, rfl⟩ := List.getElem?_zipWith_eq_some.mp hi
    exact ⟨i, slot, hslot, hop, rfl⟩
  · rintro ⟨i, slot, hslot, hop, hn⟩
    exact ⟨i, List.getElem?_zipWith_eq_some.mpr ⟨slot, n.1, hslot, hop, by rw [← hn]⟩⟩

namespace Fits

theorem exists_release (h : set.Fits F) {ops : List OpId} (hops : ops ∈ set.releases) {x : OpId} (hx : x ∈ ops) :
    ∃ slot ∈ set.slots, (x, .dealloc slot.value) ∈ F.nodes := by
  obtain ⟨hlen, hnodes⟩ := h.releases ops hops
  obtain ⟨i, hi, rfl⟩ := List.mem_iff_getElem.mp hx
  have hi' : i < set.slots.length := hlen ▸ hi
  exact ⟨set.slots.get ⟨i, hi'⟩, List.get_mem .., hnodes _ (mem_releaseNodes.mpr
    ⟨i, _, List.getElem?_eq_getElem hi', List.getElem?_eq_getElem hi, rfl⟩)⟩

theorem exists_node (h : set.Fits F) {x : OpId} (hx : x ∈ set.members) :
    ∃ i, (x, i) ∈ F.nodes ∧ i.region? = none := by
  rcases mem_members.mp hx with hx | rfl | hx | ⟨ops, hops, hx⟩
  · obtain ⟨slot, hslot, rfl⟩ := List.mem_map.mp hx
    exact ⟨_, h.allocs _ (mem_allocNodes.mpr ⟨slot, hslot, rfl⟩), rfl⟩
  · exact ⟨_, h.selects, rfl⟩
  · obtain ⟨l, ns, -, hns, hops, hcomp⟩ := h.rotates
    rw [← hops] at hx
    obtain ⟨n, hn, rfl⟩ := List.mem_map.mp hx
    exact ⟨n.2, hns n hn, hcomp.leaf n hn⟩
  · obtain ⟨slot, -, hnode⟩ := h.exists_release hops hx
    exact ⟨_, hnode, rfl⟩

theorem leaf_of_mem (h : set.Fits F) (hF : F.ids.Nodup) {n : Node} (hn : n ∈ F.nodes) (hx : n.1 ∈ set.members) :
    n.2.region? = none := by
  obtain ⟨i, hi, hnone⟩ := h.exists_node hx
  rw [Forest.node_unique hF hn hi]
  exact hnone

theorem no_barrier (h : set.Fits F) (hF : F.ids.Nodup) {n : Node} (hn : n ∈ F.nodes) (hx : n.1 ∈ set.members) :
    n.2 ≠ .barrier := by
  rcases mem_members.mp hx with hx | hx | hx | ⟨ops, hops, hx⟩
  · obtain ⟨slot, hslot, heq⟩ := List.mem_map.mp hx
    have hnode := h.allocs _ (mem_allocNodes.mpr ⟨slot, hslot, rfl⟩)
    rw [heq] at hnode
    rw [Forest.node_unique hF hn hnode]
    simp
  · have hnode := h.selects
    rw [selectNode, ← hx] at hnode
    rw [Forest.node_unique hF hn hnode]
    simp
  · obtain ⟨l, ns, -, hns, hops, hcomp⟩ := h.rotates
    rw [← hops] at hx
    obtain ⟨m, hm, heq⟩ := List.mem_map.mp hx
    have hmF : (n.1, m.2) ∈ F.nodes := heq ▸ hns m hm
    rw [Forest.node_unique hF hn hmF]
    exact hcomp.no_barrier m hm
  · obtain ⟨slot, -, hnode⟩ := h.exists_release hops hx
    rw [Forest.node_unique hF hn hnode]
    simp

theorem instr_of_slot (h : set.Fits F) (hF : F.ids.Nodup) {n : Node} (hn : n ∈ F.nodes) {slot : Slot}
    (hslot : slot ∈ set.slots) (hx : n.1 = slot.alloc) : n.2 = .alloc { result := slot.value, ty := set.ty } := by
  have hnode := h.allocs _ (mem_allocNodes.mpr ⟨slot, hslot, rfl⟩)
  rw [← hx] at hnode
  exact Forest.node_unique hF hn hnode

theorem owned_cases (h : set.Fits F) (hF : F.ids.Nodup) {v : ValueId} (hv : set.Owns F v) :
    v = set.selected ∨ (∃ slot ∈ set.slots, v = slot.value) ∨
      ∃ n ∈ F.nodes, n.1 ∈ set.rotation.ops ∧ n.2.result? = some v := by
  obtain ⟨n, hn, hx, hres⟩ := hv
  rcases mem_members.mp hx with hx | hx | hx | ⟨ops, hops, hx⟩
  · obtain ⟨slot, hslot, hx⟩ := List.mem_map.mp hx
    rw [h.instr_of_slot hF hn hslot hx.symm] at hres
    exact Or.inr (Or.inl ⟨slot, hslot, (Option.some.inj hres).symm⟩)
  · have hsel := h.selects
    rw [selectNode, ← hx] at hsel
    rw [Forest.node_unique hF hn hsel] at hres
    exact Or.inl (Option.some.inj hres).symm
  · exact Or.inr (Or.inr ⟨n, hn, hx, hres⟩)
  · obtain ⟨slot, -, hnode⟩ := h.exists_release hops hx
    rw [Forest.node_unique hF hn hnode] at hres
    cases hres

theorem user_mem (h : set.Fits F) (hF : F.ids.Nodup) {v : ValueId} (hv : set.Owns F v) (hne : v ≠ set.selected)
    {use : Use} (huse : use ∈ F.uses v) : use.user ∈ set.members := by
  rcases h.owned_cases hF hv with rfl | ⟨slot, hslot, rfl⟩ | ⟨n, hn, hx, hres⟩
  · exact absurd rfl hne
  · obtain ⟨i, hi⟩ := List.mem_iff_getElem?.mp hslot
    rcases (h.slot_uses i slot hi use).mp huse with rfl | ⟨ops, hops, hx, -⟩
    · exact mem_members.mpr (Or.inr (Or.inl rfl))
    · exact mem_members.mpr (Or.inr (Or.inr (Or.inr ⟨ops, hops, List.mem_of_getElem? hx⟩)))
  · rcases List.mem_cons.mp (h.rotation_uses n hn hx v hres use huse) with hu | hu
    · exact mem_members.mpr (Or.inr (Or.inl hu))
    · exact mem_members.mpr (Or.inr (Or.inr (Or.inl hu)))

theorem owned_controlFree (h : set.Fits F) (hF : F.ids.Nodup) (hcontrol : F.ControlFree set.selected) {v : ValueId}
    (hv : set.Owns F v) : F.ControlFree v := by
  by_cases hsel : v = set.selected
  · rw [hsel]
    exact hcontrol
  · intro a l hl
    have hnot : ∀ j : Nat, (Instr.loop l).operands[j]? ≠ some v := by
      intro j hj
      have huse : ⟨a, j⟩ ∈ F.uses v := Forest.mem_uses.mpr ⟨_, hl, hj⟩
      have hmem : a ∈ set.members := h.user_mem hF hv hsel huse
      have hleaf := h.leaf_of_mem hF hl hmem
      cases hleaf
    exact ⟨fun e => hnot 0 (by rw [← e]; rfl), fun e => hnot 2 (by rw [← e]; rfl)⟩

theorem operand_cases (h : set.Fits F) (hF : F.ids.Nodup) {n : Node} (hn : n ∈ F.nodes) (hx : n.1 ∈ set.members)
    {w : ValueId} (hw : w ∈ n.2.operands) :
    set.Owns F w ∨ ∃ l, (set.loop, .loop l) ∈ F.nodes ∧ (w = l.induction ∨ w = l.lower ∨ w = l.step) := by
  have hslots : ∀ slot ∈ set.slots, set.Owns F slot.value := fun slot hslot =>
    ⟨_, h.allocs _ (mem_allocNodes.mpr ⟨slot, hslot, rfl⟩),
      mem_members.mpr (Or.inl (List.mem_map_of_mem hslot)), rfl⟩
  obtain ⟨l, ns, hl, hns, hops, hcomp⟩ := h.rotates
  have hrot : ∀ d ∈ ns, ∀ v, d.2.result? = some v → set.Owns F v := fun d hd v hv =>
    ⟨d, hns d hd, mem_members.mpr (Or.inr (Or.inr (Or.inl (hops ▸ List.mem_map_of_mem hd)))), hv⟩
  rcases mem_members.mp hx with hx | hx | hx | ⟨ops, hr, hx⟩
  · obtain ⟨slot, hslot, hx⟩ := List.mem_map.mp hx
    rw [h.instr_of_slot hF hn hslot hx.symm] at hw
    simp [Instr.operands] at hw
  · have hsel := h.selects
    rw [selectNode, ← hx] at hsel
    rw [Forest.node_unique hF hn hsel, Instr.operands, List.mem_append, List.mem_singleton] at hw
    rcases hw with hw | rfl
    · obtain ⟨slot, hslot, rfl⟩ := List.mem_map.mp hw
      exact Or.inl (hslots slot hslot)
    · obtain ⟨m, hm, hv⟩ := hcomp.value
      exact Or.inl (hrot m hm _ hv)
  · rw [← hops] at hx
    obtain ⟨m, hm, hmn⟩ := List.mem_map.mp hx
    obtain rfl : m = n := List.inj_on_of_nodup_map hF (hns m hm) hn hmn
    obtain ⟨as, bs, hsplit⟩ := List.append_of_mem hm
    rcases hcomp.operands as m bs hsplit w hw with hw | hw | hw | ⟨d, hd, hv⟩
    · exact Or.inr ⟨l, hl, Or.inl hw⟩
    · exact Or.inr ⟨l, hl, Or.inr (Or.inl hw)⟩
    · exact Or.inr ⟨l, hl, Or.inr (Or.inr hw)⟩
    · exact Or.inl (hrot d (by rw [hsplit]; exact List.mem_append_left _ hd) w hv)
  · obtain ⟨slot, hslot, hnode⟩ := h.exists_release hr hx
    rw [Forest.node_unique hF hn hnode, Instr.operands, List.mem_singleton] at hw
    rw [hw]
    exact Or.inl (hslots slot hslot)

/-- A rewriting that keeps the ops of a set and what they are read by keeps the set in place. -/
theorem rewrite (h : set.Fits F) (hP : F.Plain) (hF : F.ids.Nodup) {R : Rewriting}
    (hkeep : ∀ n ∈ F.nodes, n.1 ∈ set.members → n ∈ R.image n)
    (huses : ∀ v, set.Owns F v → ∀ use, use ∈ (F.rewrite R).uses v ↔ use ∈ F.uses v)
    (hhead : ∀ a l, (a, .loop l) ∈ F.nodes → (R.head a l).lower = l.lower ∧ (R.head a l).step = l.step)
    (hids : (F.rewrite R).ids.Nodup) : set.Fits (F.rewrite R) := by
  have hmem : ∀ {n}, n ∈ F.nodes → n.1 ∈ set.members → n ∈ (F.rewrite R).nodes := fun hn hx =>
    (Forest.mem_nodes_rewrite hP).mpr ⟨_, hn, hkeep _ hn hx⟩
  have hback : ∀ {n}, n ∈ (F.rewrite R).nodes → n.1 ∈ set.members → n ∈ F.nodes := by
    intro n hn hx
    obtain ⟨i, hi, -⟩ := h.exists_node hx
    have hi' := hmem hi hx
    rw [show n = (n.1, i) from Prod.ext rfl (Forest.node_unique hids hn hi')]
    exact hi
  have hsel : set.selector ∈ set.members := mem_members.mpr (Or.inr (Or.inl rfl))
  have hrotm : ∀ {x}, x ∈ set.rotation.ops → x ∈ set.members := fun hx =>
    mem_members.mpr (Or.inr (Or.inr (Or.inl hx)))
  have hslotm : ∀ {slot}, slot ∈ set.slots → slot.alloc ∈ set.members := fun hs =>
    mem_members.mpr (Or.inl (List.mem_map_of_mem hs))
  have hrelm : ∀ {ops x}, ops ∈ set.releases → x ∈ ops → x ∈ set.members := fun hops hx =>
    mem_members.mpr (Or.inr (Or.inr (Or.inr ⟨_, hops, hx⟩)))
  -- Scopes between ops of the set, and from them to the loop.
  have hscope : ∀ {x y}, x ∈ set.members → y ∈ set.members → F.InScope x y → (F.rewrite R).InScope x y := by
    intro x y hx hy hs
    obtain ⟨i, hi, -⟩ := h.exists_node hx
    obtain ⟨j, hj, -⟩ := h.exists_node hy
    exact hs.rewrite (d := (x, i)) (u := (y, j)) hP hF hi hj (hkeep _ hi hx) (hkeep _ hj hy)
  obtain ⟨l, ns, hl, hns, hops, hcomp⟩ := h.rotates
  have hloop : (set.loop, .loop (R.head set.loop l)) ∈ R.image (set.loop, .loop l) := by
    rw [R.image_loop]
    exact List.mem_cons_self ..
  refine ⟨h.inhabited, h.ordinals, h.members_nodup, ?_, hmem h.selects hsel, ?_, ?_, h.factor, ?_, ?_, ?_, ?_,
    h.named, h.bindings_nodup, ?_, ?_, ?_⟩
  · intro n hn
    obtain ⟨slot, hslot, rfl⟩ := mem_allocNodes.mp hn
    exact hmem (h.allocs _ hn) (hslotm hslot)
  · intro ops hr
    refine ⟨(h.releases ops hr).1, fun n hn => hmem ((h.releases ops hr).2 n hn) ?_⟩
    obtain ⟨i, slot, -, hop, -⟩ := mem_releaseNodes.mp hn
    exact hrelm hr (List.mem_of_getElem? hop)
  · refine ⟨R.head set.loop l, ns, (Forest.mem_nodes_rewrite hP).mpr ⟨_, hl, hloop⟩, ?_, hops, hcomp.leaf,
      hcomp.no_barrier, ?_, hcomp.value⟩
    · exact fun n hn => hmem (hns n hn) (hrotm (hops ▸ List.mem_map_of_mem hn))
    · rw [(hhead _ _ hl).1, (hhead _ _ hl).2, (R.head_frame _ _).2.1]
      exact hcomp.operands
  · intro x hx
    have hxm : x ∈ set.members := by
      rcases List.mem_cons.mp hx with rfl | hx
      · exact hsel
      · exact hrotm hx
    obtain ⟨i, hi, hnone⟩ := h.exists_node hxm
    exact (h.inside x hx).rewrite (n := (x, i)) hP hF hi hnone (hkeep _ hi hxm)
  · exact fun x hx => hscope (hrotm hx) hsel (h.ahead x hx)
  · intro slot hslot
    obtain ⟨i, hi, -⟩ := h.exists_node (hslotm hslot)
    exact (h.outside slot hslot).rewrite (d := (slot.alloc, i)) (u := (set.loop, .loop l)) hP hF hi hl
      (hkeep _ hi (hslotm hslot)) hloop
  · exact fun slot hslot ops hr op hop => hscope (hslotm hslot) (hrelm hr hop) (h.released slot hslot ops hr op hop)
  · intro use
    rw [huses _ ⟨_, h.selects, hsel, rfl⟩]
    exact h.selected_uses use
  · intro i slot hi use
    have hslot := List.mem_of_getElem? hi
    rw [huses _ ⟨_, h.allocs _ (mem_allocNodes.mpr ⟨slot, hslot, rfl⟩), hslotm hslot, rfl⟩]
    exact h.slot_uses i slot hi use
  · intro n hn hx v hv use huse
    have hn' := hback hn (hrotm hx)
    rw [huses _ ⟨n, hn', hrotm hx, hv⟩] at huse
    exact h.rotation_uses n hn' hx v hv use huse

end Fits
end SlotSet
end SlotRotation
