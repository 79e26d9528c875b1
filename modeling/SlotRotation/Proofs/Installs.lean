import SlotRotation.Proofs.Assembly

/-! A set of slots comes in place of a footprint. What the exchange leaves of the rest of the kernel: scoping, other
sets, barriers at the top of loop bodies, and the ops that were there before. -/

namespace SlotRotation

def Footprint.Supplies (P : Footprint) (k : Kernel) (v : ValueId) : Prop :=
  (∃ n ∈ P.nodes, n.2.result? = some v) ∨ k.values.size ≤ v.index

namespace Kernel

variable {k k' : Kernel} {F : Forest}

structure Installs (k k' : Kernel) {F : Forest} (E : Exchange F) (P : Footprint) (set : SlotSet) (l : Loop)
    (guard rot : List Node) : Prop extends Extends k k' where
  stores : Stores k' E.result
  lies : P.Lies F set.loop l
  replaces : E.Replaces P set
  yields : E.Yields set P.value l guard rot
  opens : F.Opens set.loop l E.point
  rotates : Rotates F l set.slots.length rot set.rotation.value
  entry_new : ∀ n ∈ E.entry, k.ops.size ≤ n.1.index
  members : ∀ x ∈ set.members, x ∈ P.ids ∨ k.ops.size ≤ x.index
  selected_from : P.Supplies k set.selected
  slots_from : ∀ slot ∈ set.slots, P.Supplies k slot.value
  rot_new : ∀ n ∈ rot, ∀ v, n.2.result? = some v → k.values.size ≤ v.index
  typed : k'.typeOf? set.selected = some (.buffer set.ty)
  needs : ∀ (policy : Policy) ty a n, policy.needsGuard k' ty a n = policy.needsGuard k ty a n

def Knows (k : Kernel) (F : Forest) : Prop := ∀ n ∈ F.nodes, ∀ v ∈ n.2.operands, v.index < k.values.size

theorem Stores.knows (h : Stores k F) (hsc : F.Scoped) : k.Knows F := by
  intro n hn v hv
  obtain ⟨d, hd, hres, -⟩ := hsc n hn v hv
  exact h.result_lt hd hres

theorem Stores.operand_lt (h : Stores k F) (hsc : F.Scoped) {n : Node} (hn : n ∈ F.nodes) {v : ValueId}
    (hv : v ∈ n.2.operands) : v.index < k.values.size := h.knows hsc n hn v hv

theorem Knows.notMem_operands_of_new (h : k.Knows F) {v : ValueId} (hv : k.values.size ≤ v.index) :
    ∀ n ∈ F.nodes, v ∉ n.2.operands := fun n hn hmem => Nat.not_lt.mpr hv (h n hn v hmem)

/-- The assembled edits put a set in place, if its parts are what the edits made. -/
theorem installs_of_assembly {P : Footprint} (set : SlotSet) {l : Loop} {guard rot : List Node}
    (A : Assembly k F P set.loop l) (hk : Becomes k k' F A.rewriting) (hknows : k.Knows F) (hset : set.Formed)
    (hvalue : A.value = set.selected) (hentry : A.entry = guard ++ rot ++ [set.selectNode])
    (hguard : ∀ n ∈ guard, n.2 = .barrier) (hids : rot.map Prod.fst = set.rotation.ops)
    (hrot : Rotates F l set.slots.length rot set.rotation.value)
    (hallocs : (P.allocs.flatMap A.first.image).flatMap A.second.image = allocNodes set.ty set.slots)
    (hreleases : List.Forall₂ (fun ns ops => ns.flatMap A.second.image = releaseNodes set.slots ops)
      P.releases set.releases)
    (hprelude : P.prelude.flatMap A.second.image = [])
    (hmembers : ∀ x ∈ set.members, x ∈ P.ids ∨ k.ops.size ≤ x.index)
    (hselected : set.selected = P.value ∨ k.values.size ≤ set.selected.index)
    (hslots : ∀ slot ∈ set.slots, k.values.size ≤ slot.value.index ∨
      (set.selected = P.value ∧ ∃ n ∈ P.nodes, n.2.result? = some slot.value))
    (hnew : ∀ n ∈ rot, ∀ v, n.2.result? = some v → k.values.size ≤ v.index)
    (htyped : k'.typeOf? set.selected = some (.buffer set.ty))
    (hbindings : ∀ use, use ∈ set.bindings.map Binding.use ↔ use ∈ F.uses P.value ∧ use.user ∉ P.ids) :
    Installs k k' A.exchange P set l guard rot := by
  have hplain := A.stores.plain
  have hstores : Stores k' A.exchange.result := A.result_exchange ▸ hk.stores
  have hdisjoint : ∀ n ∈ P.releases.flatten ++ P.prelude, n ∈ P.nodes ∧ n.1 ∉ P.allocs.map Prod.fst := by
    intro n hn
    have hnodup := A.lies.nodup
    rw [Footprint.ids, Footprint.nodes, List.append_assoc, List.map_append, List.nodup_append] at hnodup
    refine ⟨?_, fun hmem => hnodup.2.2 _ hmem _ (List.mem_map_of_mem hn) rfl⟩
    rw [Footprint.nodes, List.append_assoc]
    exact List.mem_append_right _ hn
  have himage : ∀ {ns : List Node}, (∀ n ∈ ns, n ∈ P.nodes) →
      ns.flatMap A.exchange.rewriting.image = ns.flatMap A.rewriting.image := by
    intro ns hns
    rw [List.flatMap_def, List.flatMap_def]
    exact congrArg _ (List.map_congr_left fun n hn => A.image_exchange (A.lies.nodes n (hns n hn)))
  have hreplaces : A.exchange.Replaces P set := by
    refine ⟨A.keys_exchange, ?_, ?_, ?_⟩
    · rw [himage fun n hn => Footprint.mem_nodes.mpr (Or.inl hn), A.flatMap_allocs, hallocs]
    · rw [List.forall₂_iff_zip] at hreleases ⊢
      refine ⟨hreleases.1, fun {ns ops} hmem => ?_⟩
      have hns : ∀ n ∈ ns, n ∈ P.releases.flatten ++ P.prelude := fun n hn =>
        List.mem_append_left _ (List.mem_flatten.mpr ⟨ns, (List.of_mem_zip hmem).1, hn⟩)
      rw [himage fun n hn => (hdisjoint n (hns n hn)).1, A.flatMap_others fun n hn => hdisjoint n (hns n hn)]
      exact hreleases.2 hmem
    · have hns : ∀ n ∈ P.prelude, n ∈ P.releases.flatten ++ P.prelude := fun n hn => List.mem_append_right _ hn
      rw [himage fun n hn => (hdisjoint n (hns n hn)).1, A.flatMap_others fun n hn => hdisjoint n (hns n hn),
        hprelude]
  -- A slot taken over from the footprint differs from the selected value, since both are defined side by side now.
  have hslot_ne : ∀ slot ∈ set.slots, slot.value ≠ set.selected := by
    intro slot hslot heq
    have hselect : set.selectNode ∈ A.exchange.result.nodes :=
      (Exchange.mem_nodes_result hplain A.stores.nodup).mpr (Or.inr (Or.inl (by
        change set.selectNode ∈ A.entry
        rw [hentry]
        simp)))
    have halloc : (slot.alloc, .alloc { result := slot.value, ty := set.ty }) ∈ A.exchange.result.nodes := by
      have hmem : (slot.alloc, .alloc { result := slot.value, ty := set.ty }) ∈ allocNodes set.ty set.slots :=
        SlotSet.mem_allocNodes.mpr ⟨slot, hslot, rfl⟩
      rw [← hreplaces.allocs] at hmem
      obtain ⟨n, hn, himg⟩ := List.mem_flatMap.mp hmem
      exact (Forest.mem_nodes_rewrite hplain).mpr
        ⟨n, A.lies.nodes n (Footprint.mem_nodes.mpr (Or.inl hn)), himg⟩
    have hnode := hstores.result_unique hselect halloc rfl (congrArg some heq)
    cases congrArg Prod.snd hnode
  have hyields : A.exchange.Yields set P.value l guard rot := by
    refine hreplaces.yields hplain A.stores.nodup hstores.nodup A.lies hset
      (fun n hn => A.host_cases hn) hentry hguard hids hrot.computes
      (fun w => by rw [← hvalue]; rfl) ?_ ?_ ?_ hbindings
    · exact fun n hn v hv => hknows.notMem_operands_of_new (hnew n hn v hv)
    · exact hselected.imp id fun hlt => hknows.notMem_operands_of_new hlt
    · intro slot hslot m hm hid
      rcases hslots slot hslot with hlt | ⟨heq, n, hn, hres⟩
      · exact hknows.notMem_operands_of_new hlt m hm
      · rcases A.lies.hidden n hn _ hres with hval | hhidden
        · exact absurd (hval.trans heq.symm) (hslot_ne slot hslot)
        · exact hhidden m hm hid
  refine { hk.toExtends with
    stores := hstores, lies := A.lies, replaces := hreplaces, yields := hyields, opens := A.opens, rotates := hrot,
    entry_new := A.entry_new, members := hmembers, rot_new := hnew, typed := htyped,
    needs := hk.needsGuard_eq A.stores.toArranges, selected_from := ?_,
    slots_from := ?_ }
  · rcases hselected with heq | hlt
    · rw [heq]
      exact Or.inl A.lies.defined
    · exact Or.inr hlt
  · intro slot hslot
    rcases hslots slot hslot with hlt | ⟨-, hn⟩
    · exact Or.inr hlt
    · exact Or.inl hn

namespace Installs

section

variable {E : Exchange F} {P : Footprint} {set other : SlotSet} {l : Loop} {guard rot : List Node}
  (h : Installs k k' E P set l guard rot) (hS : Stores k F)
include h hS

theorem scoped_result (hsc : F.Scoped) : E.result.Scoped := h.yields.scoped_of_scoped hS.plain hS.nodup hsc

theorem fits : set.Fits E.result := h.yields.fits hS.plain hS.nodup h.stores

theorem rot_mem : ∀ n ∈ rot, n ∈ E.result.nodes := by
  intro n hn
  refine (Exchange.mem_nodes_result hS.plain hS.nodup).mpr (Or.inr (Or.inl ?_))
  rw [h.yields.entry]
  simp [hn]

theorem rot_nodup : rot.Nodup := by
  have hrotation : set.rotation.ops.Nodup :=
    (h.fits hS).members_nodup.sublist ((List.sublist_append_right _ _).trans (List.sublist_append_left _ _))
  rw [← h.yields.rot_ids] at hrotation
  exact hrotation.of_map

theorem not_owned (hdis : ∀ x ∈ other.members, x ∉ P.ids) {v : ValueId} (hv : P.Supplies k v) : ¬other.Owns F v := by
  rintro ⟨n, hn, hx, hres⟩
  rcases hv with ⟨m, hm, hmres⟩ | hlt
  · have hnode := hS.result_unique hn (h.lies.nodes m hm) hres hmres
    exact hdis n.1 hx (hnode ▸ Footprint.mem_ids_of_mem_nodes hm)
  · exact Nat.not_lt.mpr hlt (hS.result_lt hn hres)

theorem fits_other (ho : other.Fits F) (hcontrol : F.ControlFree P.value) (hoc : F.ControlFree other.selected)
    (hdis : ∀ x ∈ other.members, x ∉ P.ids) : other.Fits E.result := by
  have hkeys : ∀ x ∈ other.members, x ∉ E.keys := by
    rw [h.replaces.keys]
    exact hdis
  refine h.yields.fits_other hS.plain hS.nodup hS h.stores.nodup ho hcontrol hoc hkeys ?_ ?_ ?_
  · exact h.not_owned hS hdis h.selected_from
  · exact fun slot hslot => h.not_owned hS hdis (h.slots_from slot hslot)
  · exact fun n hn v hv => h.not_owned hS hdis (Or.inr (h.rot_new n hn v hv))

theorem members_other (ho : other.Fits F) (hdis : ∀ x ∈ other.members, x ∉ P.ids) :
    ∀ x ∈ other.members, x ∉ set.members := by
  intro x hx hmem
  rcases h.members x hmem with hid | hlt
  · exact hdis x hx hid
  · obtain ⟨i, hi, -⟩ := ho.exists_node hx
    exact Nat.not_lt.mpr hlt (hS.index_lt (Forest.mem_ids_of_mem_nodes hi))

theorem controlFree (hcontrol : F.ControlFree P.value) {v : ValueId} (hv : F.ControlFree v) :
    E.result.ControlFree v := by
  intro a m hm
  obtain ⟨m', hm', heq⟩ := h.yields.loop_of_mem hS.plain hS.nodup hm
  have hbounds := h.yields.rename_lower (hcontrol a m' hm')
  have hlower : m.lower = m'.lower := heq ▸ hbounds.1
  have hstep : m.step = m'.step := heq ▸ hbounds.2
  rw [hlower, hstep]
  exact hv a m' hm'

theorem controlFree_selected (hcontrol : F.ControlFree P.value) : E.result.ControlFree set.selected := by
  apply h.controlFree hS hcontrol
  rcases h.yields.selected_fresh with heq | hfresh
  · rw [heq]
    exact hcontrol
  · intro a l hl
    have hnot := hfresh _ hl
    simp only [Instr.operands, List.mem_cons, not_or] at hnot
    exact ⟨Ne.symm hnot.1, Ne.symm hnot.2.2.1⟩

/-- The value that the footprint defined is no longer used, unless the set selects it. -/
theorem unused (hne : set.selected ≠ P.value) (hslots : ∀ slot ∈ set.slots, slot.value ≠ P.value) :
    E.result.uses P.value = [] := by
  obtain ⟨o, ho, hores⟩ := h.lies.defined
  have hlt := hS.result_lt (h.lies.nodes o ho) hores
  refine List.eq_nil_iff_forall_not_mem.mpr fun use huse => ?_
  rcases h.yields.mem_uses_cases hS.plain hS.nodup huse with ⟨_, _, _, slot, hslot, _, _, heq⟩ | ⟨_, _, _, heq⟩ |
    ⟨_, ⟨slot, hslot, heq⟩ | heq⟩ | ⟨_, _, _, _, w, _, hw⟩
  · exact hslots slot (List.mem_of_getElem? hslot) heq
  · obtain ⟨hlower, hstep⟩ := h.yields.control hS.nodup
    rcases heq with heq | heq | heq | ⟨d, hd, hres⟩
    · have hnode := hS.result_unique (h.lies.nodes o ho) h.lies.loop hores (congrArg some heq.symm)
      have hleaf := h.lies.leaf o ho
      rw [hnode] at hleaf
      cases hleaf
    · exact hlower heq.symm
    · exact hstep heq.symm
    · exact Nat.not_lt.mpr (h.rot_new d hd _ hres) hlt
  · exact hslots slot (List.mem_of_getElem? hslot) heq
  · obtain ⟨d, hd, hres⟩ := h.yields.computes.value
    exact Nat.not_lt.mpr (h.rot_new d hd _ hres) (heq ▸ hlt)
  · rw [h.yields.rename] at hw
    split at hw
    · exact hne hw
    · rename_i hwne
      exact hwne hw

theorem origin {x : OpId} {i : Instr} (hi : (x, i) ∈ E.result.nodes) (hx : x.index < k.ops.size) :
    ∃ j, (x, j) ∈ F.nodes ∧
      ((x ∈ P.ids ∧ x ∈ set.members) ∨ (x ∉ P.ids ∧ i = j.mapOperands fun _ => E.rename)) := by
  rcases (Exchange.mem_nodes_result hS.plain hS.nodup).mp hi with ⟨e, he, hmem⟩ | hmem | ⟨n, hn, hkey, heq⟩
  · have hmember : x ∈ set.members := by
      rw [SlotSet.mem_members]
      rcases h.yields.table_cases e he _ hmem with halloc | ⟨ops, hops, hrel⟩
      · obtain ⟨slot, hslot, heq⟩ := SlotSet.mem_allocNodes.mp halloc
        exact Or.inl (List.mem_map.mpr ⟨slot, hslot, (congrArg Prod.fst heq).symm⟩)
      · obtain ⟨j, slot, -, hop, -⟩ := SlotSet.mem_releaseNodes.mp hrel
        exact Or.inr (Or.inr (Or.inr ⟨ops, hops, List.mem_of_getElem? hop⟩))
    rcases h.members x hmember with hid | hlt
    · obtain ⟨n, hn, rfl⟩ := List.mem_map.mp hid
      exact ⟨n.2, h.lies.nodes n hn, Or.inl ⟨hid, hmember⟩⟩
    · exact absurd hx (Nat.not_lt.mpr hlt)
  · exact absurd hx (Nat.not_lt.mpr (h.entry_new _ hmem))
  · cases heq
    rw [h.replaces.keys] at hkey
    exact ⟨n.2, hn, Or.inr ⟨hkey, rfl⟩⟩

theorem barrier_persists {x : OpId} {i : Instr} (hi : (x, i) ∈ E.result.nodes) (hx : x.index < k.ops.size)
    (hb : ∀ j, (x, j) ∈ F.nodes → j = .barrier) : i = .barrier := by
  obtain ⟨j, hj, ⟨hid, -⟩ | ⟨-, heq⟩⟩ := h.origin hS hi hx
  · exact absurd (hb j hj) (h.lies.no_barrier _ (h.lies.mem_of_id hS.nodup hj hid))
  · rw [heq, hb j hj]
    rfl

theorem leaf_barrier {g : OpId} (hg : (g, .barrier) ∈ F.nodes) :
    ∃ ns, E.rewriting.leaf g .barrier = (g, .barrier) :: ns := by
  have hkey : g ∉ E.keys := by
    rw [h.replaces.keys]
    intro hid
    exact h.lies.no_barrier _ (h.lies.mem_of_id hS.nodup hg hid) rfl
  refine ⟨if E.point = .after g then E.entry else [], (Exchange.leaf_rewriting (g, Instr.barrier)).trans ?_⟩
  rw [Exchange.lookup_eq_none hkey]
  rfl

/-- A barrier at the top of a loop body stays there, since new ops go behind it. -/
theorem leads {a g : OpId} (hg : F.Leads a g) : E.result.Leads a g := by
  obtain ⟨ns, hns⟩ := h.leaf_barrier hS hg.mem_nodes
  refine hg.rewrite (fun m hm => ?_) hns
  change (if E.point = .first m.body then E.entry else []) = []
  rw [if_neg]
  intro hp
  rcases h.opens with ⟨hp', hno⟩ | ⟨g', hp', -⟩
  · rw [hp'] at hp
    have heq : set.loop = a := hS.eq_of_body h.lies.loop hm (InsertPoint.first.inj hp)
    exact hno g (heq ▸ hg)
  · rw [hp'] at hp
    cases hp

theorem leads_guard {g : OpId} (hg : F.Headed set.loop l E.point guard g) : E.result.Leads set.loop g := by
  rcases hg with hlead | ⟨hp, ms, rfl⟩
  · exact h.leads hS hlead
  · obtain ⟨B, hB⟩ := Forest.exists_holds hS.plain h.lies.loop
    have hbody := hB.rewrite (R := E.rewriting)
    have htop : E.rewriting.top l.body = (g, .barrier) :: (ms ++ rot ++ [set.selectNode]) :=
      (if_pos hp).trans h.yields.entry
    rw [htop] at hbody
    exact ⟨_, _, hbody⟩

end

end Installs
end Kernel
end SlotRotation
