import SlotRotation.Proofs.Fits

/-! Exchanges that put a set of slots in place of one value. Allocations and releases come in place of others, the
index and the selector enter at the top of the loop body, and what read the old value reads the selected one. Such
an exchange leaves all operands in scope, the new set in place, and every other set in place. -/

namespace SlotRotation

structure Exchange.Yields {F : Forest} (E : Exchange F) (set : SlotSet) (old : ValueId) (l : Loop)
    (guard rot : List Node) : Prop where
  inhabited : set.slots ≠ []
  ordinals : set.slots.map Slot.ordinal = List.range set.slots.length
  members_nodup : set.members.Nodup
  lengths : ∀ ops ∈ set.releases, ops.length = set.slots.length
  factor : set.rotation.factor = set.slots.length
  named : ∀ binding ∈ set.bindings, binding.selector = set.selector
  bindings_nodup : (set.bindings.map Binding.use).Nodup
  loop : (set.loop, .loop l) ∈ F.nodes
  host : ∀ n ∈ F.nodes, Forest.Hosts n E.point → n.1 = set.loop ∨ F.Leads set.loop n.1
  entry : E.entry = guard ++ rot ++ [set.selectNode]
  guarded : ∀ n ∈ guard, n.2 = .barrier
  rot_ids : rot.map Prod.fst = set.rotation.ops
  computes : Computes l rot set.rotation.value
  rename : ∀ w, E.rename w = if w = old then set.selected else w
  old_defined : ∃ n ∈ F.nodes, n.1 ∈ E.keys ∧ n.2.result? = some old
  slots_in : ∀ n ∈ allocNodes set.ty set.slots, ∃ e ∈ E.table, n ∈ e.2
  releases_in : ∀ ops ∈ set.releases, ∀ n ∈ releaseNodes set.slots ops, ∃ e ∈ E.table, n ∈ e.2
  table_cases : ∀ e ∈ E.table, ∀ n ∈ e.2,
    n ∈ allocNodes set.ty set.slots ∨ ∃ ops ∈ set.releases, n ∈ releaseNodes set.slots ops
  slots_outside : ∀ e ∈ E.table, ∀ n ∈ e.2, n ∈ allocNodes set.ty set.slots → F.InScope e.1 set.loop
  slots_released : ∀ e ∈ E.table, ∀ n ∈ e.2, n ∈ allocNodes set.ty set.slots → ∀ e' ∈ E.table, ∀ n' ∈ e'.2,
    (∃ ops ∈ set.releases, n' ∈ releaseNodes set.slots ops) → F.InScope e.1 e'.1
  rot_fresh : ∀ n ∈ rot, ∀ v, n.2.result? = some v → ∀ m ∈ F.nodes, v ∉ m.2.operands
  selected_fresh : set.selected = old ∨ ∀ m ∈ F.nodes, set.selected ∉ m.2.operands
  slots_hidden : ∀ slot ∈ set.slots, ∀ m ∈ F.nodes, m.1 ∉ E.keys → slot.value ∉ m.2.operands
  bindings : ∀ use, use ∈ set.bindings.map Binding.use ↔ use ∈ F.uses old ∧ use.user ∉ E.keys
  inner : ∀ use ∈ F.uses old, use.user ∉ E.keys → F.InScope set.loop use.user
  keys_private : ∀ n ∈ F.nodes, n.1 ∈ E.keys → ∀ v, n.2.result? = some v →
    v = old ∨ ∀ m ∈ F.nodes, m.1 ∉ E.keys → v ∉ m.2.operands
  keys_read : ∀ n ∈ F.nodes, n.1 ∈ E.keys → ∀ w ∈ n.2.operands, w = old ∨
    (∃ m ∈ F.nodes, m.1 ∈ E.keys ∧ m.2.result? = some w) ∨ w = l.induction ∨ w = l.lower ∨ w = l.step

namespace Exchange.Yields

variable {F : Forest} {E : Exchange F} {set : SlotSet} {old : ValueId} {l : Loop} {guard rot : List Node}

theorem rename_lower (h : E.Yields set old l guard rot) {m : Loop} (hm : m.lower ≠ old ∧ m.step ≠ old) :
    E.rename m.lower = m.lower ∧ E.rename m.step = m.step := by
  obtain ⟨hlower, hstep⟩ := hm
  rw [h.rename, h.rename, if_neg hlower, if_neg hstep]
  exact ⟨rfl, rfl⟩

theorem loop_notMem (hF : F.ids.Nodup) {a : OpId} {m : Loop} (hm : (a, .loop m) ∈ F.nodes) : a ∉ E.keys := by
  intro ha
  obtain ⟨i, hi, hnone⟩ := E.leaf a ha
  rw [Forest.node_unique hF hi hm] at hnone
  cases hnone

theorem control (h : E.Yields set old l guard rot) (hF : F.ids.Nodup) : l.lower ≠ old ∧ l.step ≠ old := by
  have hnot : ∀ j : Nat, (Instr.loop l).operands[j]? ≠ some old := fun j hj =>
    Forest.InScope.irrefl hF (h.inner ⟨set.loop, j⟩ (Forest.mem_uses.mpr ⟨_, h.loop, hj⟩) (loop_notMem hF h.loop))
  exact ⟨fun heq => hnot 0 (by rw [← heq]; rfl), fun heq => hnot 2 (by rw [← heq]; rfl)⟩

theorem loop_mem_image (hF : F.ids.Nodup) {a : OpId} {m : Loop} (hm : (a, .loop m) ∈ F.nodes) :
    E.renamed (a, .loop m) ∈ E.rewriting.image (a, .loop m) :=
  renamed_mem_image (loop_notMem hF hm)

theorem mem_image_of_table (hF : F.ids.Nodup) {e : OpId × List Node} (he : e ∈ E.table) {n : Node} (hn : n ∈ e.2) :
    ∃ i, (e.1, i) ∈ F.nodes ∧ n ∈ E.rewriting.image (e.1, i) := by
  obtain ⟨i, hi, -⟩ := E.leaf e.1 (List.mem_map_of_mem (f := Prod.fst) he)
  exact ⟨i, hi, by rw [image_key hi he hF]; exact hn⟩

/-- What is inside the loop, and not its leading barrier, is in scope of the host of the entry. -/
theorem host_inScope (h : E.Yields set old l guard rot) (hF : F.ids.Nodup) {n : Node} (hn : n ∈ F.nodes)
    (hhost : Forest.Hosts n E.point) {m : Node} (hm : m ∈ F.nodes) (hs : F.InScope set.loop m.1)
    (hops : m.2.operands ≠ []) : F.InScope n.1 m.1 := by
  rcases h.host n hn hhost with heq | hlead
  · rw [heq]
    exact hs
  · refine hlead.inScope hF hs fun heq => hops ?_
    have hb := hlead.mem_nodes
    rw [← heq] at hb
    rw [Forest.node_unique hF hm hb]
    rfl

theorem inScope_host (h : E.Yields set old l guard rot) (hF : F.ids.Nodup) {n : Node} (hn : n ∈ F.nodes)
    (hhost : Forest.Hosts n E.point) {d : OpId} (hs : F.InScope d set.loop) : F.InScope d n.1 := by
  rcases h.host n hn hhost with heq | hlead
  · rw [heq]
    exact hs
  · exact hs.trans hF (hlead.child.inScope hF)

/-- The entry as seen from one of its ops: a barrier, an op of the index, or the selector behind all of those. -/
theorem entry_cases (h : E.Yields set old l guard rot) {as bs : List Node} {m : Node}
    (hm : E.entry = as ++ m :: bs) :
    m.2 = .barrier ∨ (∃ as' bs', rot = as' ++ m :: bs' ∧ ∀ d ∈ as', d ∈ as) ∨
      (m = set.selectNode ∧ ∀ d ∈ rot, d ∈ as) := by
  rw [h.entry] at hm
  rcases List.append_eq_append_iff.mp hm with ⟨cs, rfl, hcs⟩ | ⟨cs, hcs, hm⟩
  · cases cs with
    | nil =>
      simp only [List.nil_append, List.cons.injEq] at hcs
      exact Or.inr (Or.inr ⟨hcs.1.symm, fun d hd => by simp [hd]⟩)
    | cons c cs => simp at hcs
  · cases cs with
    | nil =>
      simp only [List.nil_append, List.cons.injEq] at hm
      refine Or.inr (Or.inr ⟨hm.1, fun d hd => ?_⟩)
      rw [List.append_nil] at hcs
      rw [← hcs]
      exact List.mem_append_right _ hd
    | cons c cs =>
      simp only [List.cons_append, List.cons.injEq] at hm
      obtain ⟨rfl, -⟩ := hm
      rcases List.append_eq_append_iff.mp hcs with ⟨ds, rfl, hds⟩ | ⟨ds, hds, hm⟩
      · exact Or.inr (Or.inl ⟨ds, cs, hds, fun d hd => List.mem_append_right _ hd⟩)
      · cases ds with
        | nil =>
          simp only [List.nil_append] at hm
          exact Or.inr (Or.inl ⟨[], cs, hm.symm, by simp⟩)
        | cons d ds =>
          simp only [List.cons_append, List.cons.injEq] at hm
          obtain ⟨rfl, -⟩ := hm
          exact Or.inl (h.guarded m (by rw [hds]; simp))

/-- The definition of what the loop reads is not exchanged, so it is still in scope at the loop. -/
theorem bound_defined (h : E.Yields set old l guard rot) (hF : F.ids.Nodup) (hsc : F.Scoped) {w : ValueId}
    (hw : w = l.lower ∨ w = l.step) :
    ∃ d ∈ F.nodes, F.InScope d.1 set.loop ∧ ∃ d' ∈ E.rewriting.image d, d'.2.result? = some w := by
  have hne : w ≠ old := by
    obtain ⟨hlower, hstep⟩ := h.control hF
    rcases hw with rfl | rfl
    · exact hlower
    · exact hstep
  have hmem : w ∈ (Instr.loop l).operands := by
    rcases hw with rfl | rfl <;> simp [Instr.operands]
  obtain ⟨d, hd, hres, hscope⟩ := hsc _ h.loop w hmem
  have hkey : d.1 ∉ E.keys := fun hkey => by
    rcases h.keys_private d hd hkey w hres with heq | hhidden
    · exact hne heq
    · exact hhidden _ h.loop (loop_notMem hF h.loop) hmem
  refine ⟨d, hd, hscope, _, renamed_mem_image hkey, ?_⟩
  rw [renamed, Instr.result?_mapOperands]
  exact hres

theorem slot_defined (h : E.Yields set old l guard rot) (hF : F.ids.Nodup) {slot : Slot} (hslot : slot ∈ set.slots) :
    ∃ e ∈ E.table, ∃ i n, (e.1, i) ∈ F.nodes ∧ n ∈ E.rewriting.image (e.1, i) ∧ n ∈ e.2 ∧
      n ∈ allocNodes set.ty set.slots ∧ n.2.result? = some slot.value := by
  have hn : (slot.alloc, .alloc { result := slot.value, ty := set.ty }) ∈ allocNodes set.ty set.slots :=
    SlotSet.mem_allocNodes.mpr ⟨slot, hslot, rfl⟩
  obtain ⟨e, he, hmem⟩ := h.slots_in _ hn
  obtain ⟨i, hi, himage⟩ := mem_image_of_table hF he hmem
  exact ⟨e, he, i, _, hi, himage, hmem, hn, rfl⟩

theorem scoped_of_scoped (h : E.Yields set old l guard rot) (hP : F.Plain) (hF : F.ids.Nodup) (hsc : F.Scoped) :
    E.result.Scoped := by
  refine scoped_result hP hF ?_ ?_ ?_
  · intro n hn hkey w hw
    obtain ⟨d, hd, hres, hscope⟩ := hsc n hn w hw
    by_cases hold : w = old
    · subst hold
      obtain ⟨j, hj⟩ := List.mem_iff_getElem?.mp hw
      have hin := h.inner ⟨n.1, j⟩ (Forest.mem_uses.mpr ⟨n.2, hn, hj⟩) hkey
      obtain ⟨c, hc, hhost⟩ := E.anchored.exists_host
      refine ⟨c, hc, h.host_inScope hF hc hhost hn hin (List.ne_nil_of_mem hw), set.selectNode, ?_, ?_⟩
      · rw [image_host hc hhost, h.entry]
        simp
      · rw [h.rename, if_pos rfl]
        rfl
    · have hdkey : d.1 ∉ E.keys := fun hdkey => by
        rcases h.keys_private d hd hdkey w hres with heq | hhidden
        · exact hold heq
        · exact hhidden n hn hkey hw
      refine ⟨d, hd, hscope, _, renamed_mem_image hdkey, ?_⟩
      rw [renamed, Instr.result?_mapOperands, h.rename, if_neg hold]
      exact hres
  · intro n hn ns he m hm v hv
    rcases h.table_cases _ he m hm with hm' | ⟨ops, hops, hm'⟩
    · obtain ⟨slot, -, rfl⟩ := SlotSet.mem_allocNodes.mp hm'
      simp [Instr.operands] at hv
    · obtain ⟨j, slot, hslot, -, hdealloc⟩ := SlotSet.mem_releaseNodes.mp hm'
      rw [hdealloc, Instr.operands, List.mem_singleton] at hv
      subst hv
      obtain ⟨e, he', i, d', hi, himage, hmem, halloc, hres⟩ := h.slot_defined hF (List.mem_of_getElem? hslot)
      exact ⟨_, hi, h.slots_released e he' d' hmem halloc _ he m hm ⟨ops, hops, hm'⟩, d', himage, hres⟩
  · intro n hn hhost as m bs hsplit v hv
    have hbound : v = l.lower ∨ v = l.step →
        ∃ d ∈ F.nodes, F.InScope d.1 n.1 ∧ ∃ d' ∈ E.rewriting.image d, d'.2.result? = some v := by
      intro hvl
      obtain ⟨d, hd, hscope, hdef⟩ := h.bound_defined hF hsc hvl
      exact ⟨d, hd, h.inScope_host hF hn hhost hscope, hdef⟩
    rcases h.entry_cases hsplit with hb | ⟨as', bs', hrot, hsub⟩ | ⟨rfl, hsub⟩
    · rw [hb] at hv
      simp [Instr.operands] at hv
    · rcases h.computes.operands as' m bs' hrot v hv with rfl | hvl | hvl | ⟨d, hd, hres⟩
      · rcases h.host n hn hhost with heq | hlead
        · refine Or.inr (Or.inl ?_)
          have hl := h.loop
          rw [← heq] at hl
          rw [Forest.node_unique hF hn hl]
          rfl
        · refine Or.inl ⟨_, h.loop, hlead.child.inScope hF, _, loop_mem_image hF h.loop, ?_⟩
          rw [renamed, Instr.result?_mapOperands]
          rfl
      · exact Or.inl (hbound (Or.inl hvl))
      · exact Or.inl (hbound (Or.inr hvl))
      · exact Or.inr (Or.inr ⟨d, hsub d hd, hres⟩)
    · rw [SlotSet.selectNode, Instr.operands, List.mem_append, List.mem_singleton] at hv
      rcases hv with hv | rfl
      · obtain ⟨slot, hslot, rfl⟩ := List.mem_map.mp hv
        obtain ⟨e, he, i, d', hi, himage, hmem, halloc, hres⟩ := h.slot_defined hF hslot
        have hout := h.slots_outside e he d' hmem halloc
        exact Or.inl ⟨_, hi, h.inScope_host hF hn hhost hout, d', himage, hres⟩
      · obtain ⟨d, hd, hres⟩ := h.computes.value
        exact Or.inr (Or.inr ⟨d, hsub d hd, hres⟩)

theorem rot_id_mem (h : E.Yields set old l guard rot) {n : Node} (hn : n ∈ rot) : n.1 ∈ set.rotation.ops :=
  h.rot_ids ▸ List.mem_map_of_mem hn

structure Apart (set : SlotSet) (l : Loop) (rot : List Node) : Prop where
  slot_selected : ∀ slot ∈ set.slots, slot.value ≠ set.selected
  rot_selected : ∀ n ∈ rot, n.2.result? ≠ some set.selected
  rot_slot : ∀ slot ∈ set.slots, ∀ n ∈ rot, n.2.result? ≠ some slot.value
  slot_inj : ∀ (i j : Nat) (s t : Slot), set.slots[i]? = some s → set.slots[j]? = some t → s.value = t.value → i = j
  loop_selected : l.induction ≠ set.selected ∧ l.lower ≠ set.selected ∧ l.step ≠ set.selected
  loop_slot : ∀ slot ∈ set.slots, l.induction ≠ slot.value ∧ l.lower ≠ slot.value ∧ l.step ≠ slot.value

section
variable {k : Kernel} (h : E.Yields set old l guard rot) (hP : F.Plain) (hF : F.ids.Nodup)
include h hP hF

theorem alloc_mem {slot : Slot} (hslot : slot ∈ set.slots) :
    (slot.alloc, .alloc { result := slot.value, ty := set.ty }) ∈ E.result.nodes :=
  (mem_nodes_result hP hF).mpr (Or.inl (h.slots_in _ (SlotSet.mem_allocNodes.mpr ⟨slot, hslot, rfl⟩)))

theorem select_mem : set.selectNode ∈ E.result.nodes :=
  (mem_nodes_result hP hF).mpr (Or.inr (Or.inl (by rw [h.entry]; simp)))

theorem rot_mem {n : Node} (hn : n ∈ rot) : n ∈ E.result.nodes :=
  (mem_nodes_result hP hF).mpr (Or.inr (Or.inl (by rw [h.entry]; simp [hn])))

theorem apart (hS : k.Stores E.result) : Apart set l rot := by
  obtain ⟨hnodup, hsel, hrot, hselrot⟩ := SlotSet.members_disjoint h.members_nodup
  have hloop : E.renamed (set.loop, .loop l) ∈ E.result.nodes :=
    (mem_nodes_result hP hF).mpr (Or.inr (Or.inr ⟨_, h.loop, loop_notMem hF h.loop, rfl⟩))
  have hloopres : (E.renamed (set.loop, .loop l)).2.result? = some l.induction := by
    rw [renamed, Instr.result?_mapOperands]
    rfl
  have hbound : ∀ {v}, (∀ m ∈ F.nodes, v ∉ m.2.operands) → l.lower ≠ v ∧ l.step ≠ v := by
    intro v hv
    have hnot := hv _ h.loop
    simp only [Instr.operands, List.mem_cons, not_or] at hnot
    exact ⟨Ne.symm hnot.1, Ne.symm hnot.2.2.1⟩
  have hselected : l.lower ≠ set.selected ∧ l.step ≠ set.selected := by
    rcases h.selected_fresh with heq | hfresh
    · rw [heq]
      exact h.control hF
    · exact hbound hfresh
  refine ⟨fun slot hslot heq => ?_, fun n hn hv => ?_, fun slot hslot n hn hv => ?_, fun i j s t hi hj heq => ?_,
    ⟨fun heq => ?_, hselected⟩, fun slot hslot => ⟨fun heq => ?_, ?_⟩⟩
  · have hnode := hS.result_unique (h.alloc_mem hP hF hslot) (h.select_mem hP hF) (v := slot.value) rfl (by
      rw [heq]; rfl)
    exact hsel slot hslot (congrArg Prod.fst hnode)
  · have hnode := hS.result_unique (h.rot_mem hP hF hn) (h.select_mem hP hF) hv rfl
    have hid : n.1 = set.selector := congrArg Prod.fst hnode
    exact hselrot (hid ▸ h.rot_id_mem hn)
  · have hnode := hS.result_unique (h.rot_mem hP hF hn) (h.alloc_mem hP hF hslot) hv rfl
    have hid : n.1 = slot.alloc := congrArg Prod.fst hnode
    exact hrot slot hslot (hid ▸ h.rot_id_mem hn)
  · have hs := List.mem_of_getElem? hi
    have ht := List.mem_of_getElem? hj
    have hnode := hS.result_unique (h.alloc_mem hP hF hs) (h.alloc_mem hP hF ht) (v := t.value)
      (by rw [← heq]; rfl) rfl
    have hid : s.alloc = t.alloc := congrArg Prod.fst hnode
    obtain ⟨hilt, hi'⟩ := List.getElem?_eq_some_iff.mp hi
    obtain ⟨hjlt, hj'⟩ := List.getElem?_eq_some_iff.mp hj
    have hilt' : i < (set.slots.map Slot.alloc).length := by simpa using hilt
    have hjlt' : j < (set.slots.map Slot.alloc).length := by simpa using hjlt
    have heqs : (set.slots.map Slot.alloc)[i] = (set.slots.map Slot.alloc)[j] := by
      simp only [List.getElem_map, hi', hj', hid]
    exact (List.Nodup.getElem_inj_iff hnodup).mp heqs
  · have hnode := hS.result_unique hloop (h.select_mem hP hF) hloopres (by rw [heq]; rfl)
    exact absurd (congrArg Prod.snd hnode) (by simp [renamed, Instr.mapOperands, SlotSet.selectNode])
  · have hnode := hS.result_unique hloop (h.alloc_mem hP hF hslot) hloopres (by rw [heq]; rfl)
    exact absurd (congrArg Prod.snd hnode) (by simp [renamed, Instr.mapOperands])
  · have hnot := h.slots_hidden slot hslot _ h.loop (loop_notMem hF h.loop)
    simp only [Instr.operands, List.mem_cons, not_or] at hnot
    exact ⟨Ne.symm hnot.1, Ne.symm hnot.2.2.1⟩

theorem mem_uses_cases {v : ValueId} {use : Use} (huse : use ∈ E.result.uses v) :
    (∃ ops ∈ set.releases, ∃ (j : Nat) (slot : Slot), set.slots[j]? = some slot ∧ ops[j]? = some use.user ∧
      use.operand = 0 ∧ slot.value = v) ∨
    (∃ n ∈ rot, use.user = n.1 ∧ (v = l.induction ∨ v = l.lower ∨ v = l.step ∨ ∃ d ∈ rot, d.2.result? = some v)) ∨
    (use.user = set.selector ∧ ((∃ slot, set.slots[use.operand]? = some slot ∧ slot.value = v) ∨
      set.rotation.value = v)) ∨
    ∃ n ∈ F.nodes, n.1 ∉ E.keys ∧ use.user = n.1 ∧ ∃ w, n.2.operands[use.operand]? = some w ∧ E.rename w = v := by
  rcases (mem_uses_result hP hF).mp huse with ⟨e, he, m, hm, hu⟩ | ⟨m, hm, hu⟩ | ⟨n, hn, hkey, hu⟩
  · obtain ⟨huser, hop⟩ := Forest.mem_usesIn.mp hu
    rcases h.table_cases e he m hm with hm' | ⟨ops, hops, hm'⟩
    · obtain ⟨slot, -, rfl⟩ := SlotSet.mem_allocNodes.mp hm'
      simp [Instr.operands] at hop
    · obtain ⟨j, slot, hslot, hj, hd⟩ := SlotSet.mem_releaseNodes.mp hm'
      rw [hd, Instr.operands, List.getElem?_singleton] at hop
      split at hop
      · rename_i hzero
        exact Or.inl ⟨ops, hops, j, slot, hslot, huser ▸ hj, hzero, Option.some.inj hop⟩
      · cases hop
  · obtain ⟨huser, hop⟩ := Forest.mem_usesIn.mp hu
    have hv := List.mem_of_getElem? hop
    obtain ⟨as, bs, hsplit⟩ := List.append_of_mem hm
    rcases h.entry_cases hsplit with hb | ⟨as', bs', hrot, -⟩ | ⟨rfl, -⟩
    · rw [hb] at hv
      simp [Instr.operands] at hv
    · have hsub : ∀ d ∈ as', d ∈ rot := fun d hd => by rw [hrot]; exact List.mem_append_left _ hd
      refine Or.inr (Or.inl ⟨m, by rw [hrot]; simp, huser, ?_⟩)
      rcases h.computes.operands as' m bs' hrot v hv with hv | hv | hv | ⟨d, hd, hres⟩
      · exact Or.inl hv
      · exact Or.inr (Or.inl hv)
      · exact Or.inr (Or.inr (Or.inl hv))
      · exact Or.inr (Or.inr (Or.inr ⟨d, hsub d hd, hres⟩))
    · refine Or.inr (Or.inr (Or.inl ⟨huser, ?_⟩))
      simp only [SlotSet.selectNode, Instr.operands] at hop
      rcases Nat.lt_or_ge use.operand set.slotValues.length with hlt | hge
      · rw [List.getElem?_append_left hlt, SlotSet.slotValues, List.getElem?_map, Option.map_eq_some_iff] at hop
        exact Or.inl hop
      · rw [List.getElem?_append_right hge, List.getElem?_singleton] at hop
        split at hop
        · exact Or.inr (Option.some.inj hop)
        · cases hop
  · obtain ⟨huser, w, hw, hren⟩ := mem_usesIn_renamed.mp hu
    exact Or.inr (Or.inr (Or.inr ⟨n, hn, hkey, huser, w, hw, hren⟩))

theorem selected_uses (hS : k.Stores E.result) (use : Use) :
    use ∈ E.result.uses set.selected ↔ use ∈ set.bindings.map Binding.use := by
  have hap := h.apart hP hF hS
  rw [h.bindings]
  constructor
  · intro huse
    rcases h.mem_uses_cases hP hF huse with ⟨ops, -, j, slot, hslot, -, -, hv⟩ | ⟨n, -, -, hv⟩ | ⟨-, hv⟩ |
      ⟨n, hn, hkey, huser, w, hw, hren⟩
    · exact absurd hv (hap.slot_selected slot (List.mem_of_getElem? hslot))
    · rcases hv with hv | hv | hv | ⟨d, hd, hres⟩
      · exact absurd hv.symm hap.loop_selected.1
      · exact absurd hv.symm hap.loop_selected.2.1
      · exact absurd hv.symm hap.loop_selected.2.2
      · exact absurd hres (hap.rot_selected d hd)
    · rcases hv with ⟨slot, hslot, hv⟩ | hv
      · exact absurd hv (hap.slot_selected slot (List.mem_of_getElem? hslot))
      · obtain ⟨d, hd, hres⟩ := h.computes.value
        rw [hv] at hres
        exact absurd hres (hap.rot_selected d hd)
    · rw [h.rename] at hren
      have hold : w = old := by
        by_contra hne
        rw [if_neg hne] at hren
        rcases h.selected_fresh with heq | hfresh
        · exact hne (hren.trans heq)
        · exact hfresh n hn (hren ▸ List.mem_of_getElem? hw)
      refine ⟨Forest.mem_uses.mpr ⟨n.2, huser ▸ hn, hold ▸ hw⟩, huser ▸ hkey⟩
  · rintro ⟨huse, hkey⟩
    obtain ⟨i, hi, hw⟩ := Forest.mem_uses.mp huse
    refine (mem_uses_result hP hF).mpr (Or.inr (Or.inr ⟨_, hi, hkey, mem_usesIn_renamed.mpr ⟨rfl, old, hw, ?_⟩⟩))
    rw [h.rename, if_pos rfl]

theorem slot_uses (hS : k.Stores E.result) {i : Nat} {slot : Slot} (hi : set.slots[i]? = some slot) (use : Use) :
    use ∈ E.result.uses slot.value ↔
      use = ⟨set.selector, i⟩ ∨ ∃ ops ∈ set.releases, ops[i]? = some use.user ∧ use.operand = 0 := by
  have hap := h.apart hP hF hS
  have hslot := List.mem_of_getElem? hi
  constructor
  · intro huse
    rcases h.mem_uses_cases hP hF huse with ⟨ops, hops, j, t, ht, hj, hzero, hv⟩ | ⟨n, -, -, hv⟩ | ⟨huser, hv⟩ |
      ⟨n, hn, hkey, huser, w, hw, hren⟩
    · obtain rfl := hap.slot_inj j i t slot ht hi hv
      exact Or.inr ⟨ops, hops, hj, hzero⟩
    · rcases hv with hv | hv | hv | ⟨d, hd, hres⟩
      · exact absurd hv.symm (hap.loop_slot slot hslot).1
      · exact absurd hv.symm (hap.loop_slot slot hslot).2.1
      · exact absurd hv.symm (hap.loop_slot slot hslot).2.2
      · exact absurd hres (hap.rot_slot slot hslot d hd)
    · rcases hv with ⟨t, ht, hv⟩ | hv
      · have hj := hap.slot_inj use.operand i t slot ht hi hv
        left
        cases use
        simp_all
      · obtain ⟨d, hd, hres⟩ := h.computes.value
        rw [hv] at hres
        exact absurd hres (hap.rot_slot slot hslot d hd)
    · rw [h.rename] at hren
      split at hren
      · exact absurd hren.symm (hap.slot_selected slot hslot)
      · exact absurd (hren ▸ List.mem_of_getElem? hw) (h.slots_hidden slot hslot n hn hkey)
  · rintro (rfl | ⟨ops, hops, hop, hzero⟩)
    · refine Forest.mem_uses.mpr ⟨_, h.select_mem hP hF, ?_⟩
      have hlt : i < set.slotValues.length := by
        rw [SlotSet.slotValues, List.length_map]
        exact (List.getElem?_eq_some_iff.mp hi).1
      rw [Instr.operands, List.getElem?_append_left hlt, SlotSet.slotValues, List.getElem?_map, hi]
      rfl
    · have hmem : (use.user, .dealloc slot.value) ∈ releaseNodes set.slots ops :=
        SlotSet.mem_releaseNodes.mpr ⟨i, slot, hi, hop, rfl⟩
      obtain ⟨e, he, hn⟩ := h.releases_in ops hops _ hmem
      refine Forest.mem_uses.mpr ⟨.dealloc slot.value, (mem_nodes_result hP hF).mpr (Or.inl ⟨e, he, hn⟩), ?_⟩
      rw [hzero]
      rfl

theorem rotation_uses (hS : k.Stores E.result) {n : Node} (hn : n ∈ E.result.nodes) (hx : n.1 ∈ set.rotation.ops)
    {v : ValueId} (hv : n.2.result? = some v) {use : Use} (huse : use ∈ E.result.uses v) :
    use.user ∈ set.selector :: set.rotation.ops := by
  have hap := h.apart hP hF hS
  have hrot : n ∈ rot := by
    rw [← h.rot_ids] at hx
    obtain ⟨m, hm, hid⟩ := List.mem_map.mp hx
    rw [← List.inj_on_of_nodup_map hS.nodup (h.rot_mem hP hF hm) hn hid]
    exact hm
  rcases h.mem_uses_cases hP hF huse with ⟨ops, -, j, slot, hslot, -, -, heq⟩ | ⟨m, hm, huser, -⟩ | ⟨huser, -⟩ |
    ⟨m, hm, hkey, huser, w, hw, hren⟩
  · rw [← heq] at hv
    exact absurd hv (hap.rot_slot slot (List.mem_of_getElem? hslot) n hrot)
  · rw [huser]
    exact List.mem_cons_of_mem _ (h.rot_id_mem hm)
  · rw [huser]
    exact List.mem_cons_self ..
  · rw [h.rename] at hren
    split at hren
    · rw [← hren] at hv
      exact absurd hv (hap.rot_selected n hrot)
    · exact absurd (hren ▸ List.mem_of_getElem? hw) (h.rot_fresh n hrot v hv m hm)

theorem loop_of_mem {a : OpId} {m : Loop} (hm : (a, .loop m) ∈ E.result.nodes) :
    ∃ m', (a, .loop m') ∈ F.nodes ∧ m = E.rewriting.head a m' := by
  rcases (mem_nodes_result hP hF).mp hm with ⟨e, he, hn⟩ | hn | ⟨⟨b, i⟩, hn, -, heq⟩
  · rcases h.table_cases e he _ hn with hn | ⟨ops, -, hn⟩
    · obtain ⟨slot, -, heq⟩ := SlotSet.mem_allocNodes.mp hn
      cases heq
    · obtain ⟨j, slot, -, -, heq⟩ := SlotSet.mem_releaseNodes.mp hn
      cases heq
  · obtain ⟨as, bs, hsplit⟩ := List.append_of_mem hn
    rcases h.entry_cases hsplit with hb | ⟨as', bs', hrot, -⟩ | ⟨heq, -⟩
    · cases hb
    · have hleaf := h.computes.leaf (a, .loop m) (by rw [hrot]; simp)
      cases hleaf
    · cases heq
  · cases i with
    | loop m' =>
      simp only [renamed, Instr.mapOperands, Prod.mk.injEq, Instr.loop.injEq] at heq
      obtain ⟨rfl, rfl⟩ := heq
      exact ⟨m', hn, rfl⟩
    | _ => cases heq

theorem entry_child {n : Node} (hn : n ∈ E.entry) : E.result.Child set.loop n.1 := by
  obtain ⟨c, hc, hhost⟩ := E.anchored.exists_host
  have himage : n ∈ E.rewriting.image c := by
    rw [image_host hc hhost]
    exact List.mem_cons_of_mem _ hn
  rcases h.host c hc hhost with heq | hlead
  · obtain ⟨B, hB⟩ := Forest.exists_holds hP h.loop
    refine Forest.child_top hB ?_
    have hcl : c = (set.loop, .loop l) := by
      have hl := h.loop
      rw [← heq] at hl ⊢
      exact Prod.ext rfl (Forest.node_unique hF hc hl)
    rw [hcl] at hhost
    have hp : E.point = .first l.body := hhost
    rw [rewriting]
    simpa [hp] using hn
  · have hbarrier : c.2.region? = none := by
      rw [Forest.node_unique hF hc hlead.mem_nodes]
      rfl
    exact hlead.child.rewrite hP hF hc hbarrier himage

theorem fits (hS : k.Stores E.result) : set.Fits E.result := by
  obtain ⟨c, hc, hhost⟩ := E.anchored.exists_host
  have himage := image_host hc hhost
  have halloc : ∀ slot ∈ set.slots, ∃ e ∈ E.table, ∃ i n, (e.1, i) ∈ F.nodes ∧ n ∈ E.rewriting.image (e.1, i) ∧
      n.1 = slot.alloc ∧ n ∈ e.2 ∧ n ∈ allocNodes set.ty set.slots := by
    intro slot hslot
    have hn : (slot.alloc, .alloc { result := slot.value, ty := set.ty }) ∈ allocNodes set.ty set.slots :=
      SlotSet.mem_allocNodes.mpr ⟨slot, hslot, rfl⟩
    obtain ⟨e, he, hmem⟩ := h.slots_in _ hn
    obtain ⟨i, hi, himg⟩ := mem_image_of_table hF he hmem
    exact ⟨e, he, i, _, hi, himg, rfl, hmem, hn⟩
  refine ⟨h.inhabited, h.ordinals, h.members_nodup, ?_, h.select_mem hP hF, ?_, ?_, h.factor, ?_, ?_, ?_, ?_,
    h.named, h.bindings_nodup, h.selected_uses hP hF hS, fun i slot hi => h.slot_uses hP hF hS hi,
    fun n hn hx v hv use => h.rotation_uses hP hF hS hn hx hv⟩
  · exact fun n hn => (mem_nodes_result hP hF).mpr (Or.inl (h.slots_in n hn))
  · exact fun ops hops => ⟨h.lengths ops hops, fun n hn =>
      (mem_nodes_result hP hF).mpr (Or.inl (h.releases_in ops hops n hn))⟩
  · refine ⟨E.rewriting.head set.loop l, rot, ?_, fun n hn => h.rot_mem hP hF hn, h.rot_ids, h.computes.leaf,
      h.computes.no_barrier, ?_, h.computes.value⟩
    · exact (mem_nodes_result hP hF).mpr (Or.inr (Or.inr ⟨_, h.loop, loop_notMem hF h.loop, rfl⟩))
    · have hbounds := h.rename_lower (h.control hF)
      have hlower : (E.rewriting.head set.loop l).lower = l.lower := hbounds.1
      have hstep : (E.rewriting.head set.loop l).step = l.step := hbounds.2
      rw [hlower, hstep]
      exact h.computes.operands
  · intro x hx
    rcases List.mem_cons.mp hx with rfl | hx
    · exact h.entry_child hP hF (n := set.selectNode) (by rw [h.entry]; simp)
    · rw [← h.rot_ids] at hx
      obtain ⟨n, hn, rfl⟩ := List.mem_map.mp hx
      exact h.entry_child hP hF (by rw [h.entry]; simp [hn])
  · intro x hx
    rw [← h.rot_ids] at hx
    obtain ⟨n, hn, rfl⟩ := List.mem_map.mp hx
    obtain ⟨as, bs, rfl⟩ := List.append_of_mem hn
    have hsplit : E.rewriting.image c = (E.renamed c :: (guard ++ as)) ++ n :: (bs ++ set.selectNode :: []) := by
      rw [himage, h.entry]
      simp
    exact Forest.inScope_image hP hc hsplit
  · intro slot hslot
    obtain ⟨e, he, i, n, hi, himg, hid, hmem, hn⟩ := halloc slot hslot
    rw [← hid]
    exact (h.slots_outside e he n hmem hn).rewrite (d := (e.1, i)) (u := (set.loop, .loop l)) hP hF hi h.loop himg
      (loop_mem_image hF h.loop)
  · intro slot hslot ops hops op hop
    obtain ⟨e, he, i, n, hi, himg, hid, hmem, hn⟩ := halloc slot hslot
    obtain ⟨j, hj, rfl⟩ := List.mem_iff_getElem.mp hop
    have hj' : j < set.slots.length := h.lengths ops hops ▸ hj
    have hrel : (ops.get ⟨j, hj⟩, .dealloc (set.slots.get ⟨j, hj'⟩).value) ∈ releaseNodes set.slots ops :=
      SlotSet.mem_releaseNodes.mpr ⟨j, _, List.getElem?_eq_getElem hj', List.getElem?_eq_getElem hj, rfl⟩
    obtain ⟨e', he', hmem'⟩ := h.releases_in ops hops _ hrel
    obtain ⟨i', hi', himg'⟩ := mem_image_of_table hF he' hmem'
    rw [← hid]
    exact (h.slots_released e he n hmem hn e' he' _ hmem' ⟨ops, hops, hrel⟩).rewrite
      (d := (e.1, i)) (u := (e'.1, i')) hP hF hi hi' himg himg'

variable {other : SlotSet}

omit hP hF in
theorem not_owns_old (hS : k.Stores F) (hdis : ∀ x ∈ other.members, x ∉ E.keys) : ¬other.Owns F old := by
  rintro ⟨n, hn, hx, hres⟩
  obtain ⟨o, hoF, hokey, hores⟩ := h.old_defined
  have hnode := hS.result_unique hn hoF hres hores
  exact hdis n.1 hx (hnode ▸ hokey)

omit hP hF in
theorem rename_eq_iff (hold : ¬other.Owns F old) (hsel : ¬other.Owns F set.selected) {v : ValueId}
    (hv : other.Owns F v) (w : ValueId) : E.rename w = v ↔ w = v := by
  rw [h.rename]
  split
  · rename_i heq
    exact ⟨fun e => absurd (e ▸ hv) hsel, fun e => absurd (heq ▸ e ▸ hv) hold⟩
  · exact Iff.rfl

omit hP in
theorem ne_bounds (hS : k.Stores F) (ho : other.Fits F) (hoc : F.ControlFree other.selected) {v : ValueId}
    (hv : other.Owns F v) : v ≠ l.induction ∧ v ≠ l.lower ∧ v ≠ l.step := by
  obtain ⟨hlower, hstep⟩ := ho.owned_controlFree hF hoc hv _ _ h.loop
  refine ⟨?_, Ne.symm hlower, Ne.symm hstep⟩
  rintro rfl
  obtain ⟨n, hn, hx, hres⟩ := hv
  have hleaf := ho.leaf_of_mem hF hn hx
  rw [hS.result_unique hn h.loop hres rfl] at hleaf
  cases hleaf

omit hP in
theorem renamed_member (hS : k.Stores F) (ho : other.Fits F) (hcontrol : F.ControlFree old)
    (hdis : ∀ x ∈ other.members, x ∉ E.keys) (hsel : ¬other.Owns F set.selected) {n : Node} (hn : n ∈ F.nodes)
    (hx : n.1 ∈ other.members) : E.renamed n = n := by
  obtain ⟨o, hoF, hokey, hores⟩ := h.old_defined
  have hinstr : n.2.mapOperands (fun _ => E.rename) = n.2.mapOperands fun _ v => v := by
    refine Instr.mapOperands_congr fun j w hw => ?_
    rcases ho.operand_cases hF hn hx (List.mem_of_getElem? hw) with hown | ⟨m, hm, hw⟩
    · exact (h.rename_eq_iff (h.not_owns_old hS hdis) hsel hown w).mpr rfl
    · rw [h.rename, if_neg]
      rintro rfl
      obtain ⟨hlower, hstep⟩ := hcontrol _ _ hm
      rcases hw with hw | hw | hw
      · have hnode := hS.result_unique hoF hm hores (congrArg some hw.symm)
        exact loop_notMem hF hm (hnode ▸ hokey)
      · exact hlower hw.symm
      · exact hstep hw.symm
  exact Prod.ext rfl (hinstr.trans (Instr.mapOperands_id n.2))

theorem uses_owned (hS : k.Stores F) (ho : other.Fits F) (hoc : F.ControlFree other.selected)
    (hdis : ∀ x ∈ other.members, x ∉ E.keys) (hsel : ¬other.Owns F set.selected)
    (hslots : ∀ slot ∈ set.slots, ¬other.Owns F slot.value)
    (hrot : ∀ n ∈ rot, ∀ v, n.2.result? = some v → ¬other.Owns F v) {v : ValueId} (hv : other.Owns F v) (use : Use) :
    use ∈ E.result.uses v ↔ use ∈ F.uses v := by
  have hold := h.not_owns_old hS hdis
  have hrename := h.rename_eq_iff hold hsel hv
  obtain ⟨hind, hlower, hstep⟩ := h.ne_bounds hF hS ho hoc hv
  constructor
  · intro huse
    rcases h.mem_uses_cases hP hF huse with ⟨ops, -, j, slot, hslot, -, -, heq⟩ | ⟨n, -, -, heq⟩ | ⟨-, heq⟩ |
      ⟨n, hn, hkey, huser, w, hw, hren⟩
    · exact absurd (heq ▸ hv) (hslots slot (List.mem_of_getElem? hslot))
    · rcases heq with heq | heq | heq | ⟨d, hd, hres⟩
      · exact absurd heq hind
      · exact absurd heq hlower
      · exact absurd heq hstep
      · exact absurd hv (hrot d hd v hres)
    · rcases heq with ⟨slot, hslot, heq⟩ | heq
      · exact absurd (heq ▸ hv) (hslots slot (List.mem_of_getElem? hslot))
      · obtain ⟨d, hd, hres⟩ := h.computes.value
        exact absurd hv (hrot d hd v (heq ▸ hres))
    · rw [hrename] at hren
      exact Forest.mem_uses.mpr ⟨n.2, huser ▸ hn, hren ▸ hw⟩
  · intro huse
    obtain ⟨i, hi, hw⟩ := Forest.mem_uses.mp huse
    have hkey : use.user ∉ E.keys := by
      intro hkey
      rcases h.keys_read _ hi hkey v (List.mem_of_getElem? hw) with rfl | ⟨m, hm, hmkey, hres⟩ | hvl
      · exact hold hv
      · obtain ⟨n, hn, hx, hnres⟩ := hv
        have hnode := hS.result_unique hn hm hnres hres
        exact hdis n.1 hx (hnode ▸ hmkey)
      · rcases hvl with hvl | hvl | hvl
        · exact hind hvl
        · exact hlower hvl
        · exact hstep hvl
    exact (mem_uses_result hP hF).mpr (Or.inr (Or.inr ⟨_, hi, hkey, mem_usesIn_renamed.mpr
      ⟨rfl, v, hw, (hrename v).mpr rfl⟩⟩))

/-- Another set stays in place, if none of its ops is exchanged and the new values are not its own. -/
theorem fits_other (hS : k.Stores F) (hids : E.result.ids.Nodup) (ho : other.Fits F)
    (hcontrol : F.ControlFree old) (hoc : F.ControlFree other.selected)
    (hdis : ∀ x ∈ other.members, x ∉ E.keys) (hsel : ¬other.Owns F set.selected)
    (hslots : ∀ slot ∈ set.slots, ¬other.Owns F slot.value)
    (hrot : ∀ n ∈ rot, ∀ v, n.2.result? = some v → ¬other.Owns F v) : other.Fits E.result := by
  refine ho.rewrite hP hF (fun n hn hx => ?_) (fun v hv => ?_) (fun a m hm => ?_) hids
  · have himage := renamed_mem_image (E := E) (n := n) (hdis n.1 hx)
    rwa [h.renamed_member hF hS ho hcontrol hdis hsel hn hx] at himage
  · exact h.uses_owned hP hF hS ho hoc hdis hsel hslots hrot hv
  · exact h.rename_lower (hcontrol a m hm)

end

end Exchange.Yields
end SlotRotation
