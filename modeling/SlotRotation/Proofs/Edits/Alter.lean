import SlotRotation.Proofs.Edits.Basic

/-! Another instruction for an op. -/

namespace SlotRotation.Kernel

variable {k : Kernel} {F : Forest} {R : Rewriting}

theorem op?_setInstr {id : OpId} {op : Op} (h : k.op? id = some op) (i : Instr) (x : OpId) :
    (k.setInstr id i).op? x = if x = id then some { op with instr := i } else k.op? x := by
  simp [setInstr, h, op?_setOp, lt_size_of_op? h]

theorem size_ops_setInstr (k : Kernel) (id : OpId) (i : Instr) : (k.setInstr id i).ops.size = k.ops.size := by
  unfold setInstr
  split <;> simp [setOp]

theorem regions_setInstr (k : Kernel) (id : OpId) (i : Instr) : (k.setInstr id i).regions = k.regions := by
  unfold setInstr
  split <;> rfl

theorem values_setInstr (k : Kernel) (id : OpId) (i : Instr) : (k.setInstr id i).values = k.values := by
  unfold setInstr
  split <;> rfl

structure Alters (R : Rewriting) (F : Forest) (id : OpId) (i : Instr) : Prop where
  image : ∀ m ∈ F.nodes, R.image m = [if m.1 = id then (id, i) else m]
  top : ∀ r, R.top r = []

theorem Arranges.setInstr (h : Arranges k F) {n : Node} (hn : n ∈ F.nodes) {i : Instr}
    (hi : i.region? = n.2.region?) (hR : Alters R F n.1 i) : Arranges (k.setInstr n.1 i) (F.rewrite R) := by
  obtain ⟨s, hs⟩ := h.placed.op? hn
  have hop := op?_setInstr hs i
  have hlists : ∀ r, (k.setInstr n.1 i).regionOps r = k.regionOps r := by simp [regionOps, region?, regions_setInstr]
  have hnode : ∀ m ∈ F.nodes, m.1 = n.1 → m = n := fun m hm e => List.inj_on_of_nodup_map h.nodup hm hn e
  have himage : ∀ m ∈ F.nodes, ∀ t, k.op? m.1 = some ⟨m.2, t⟩ → ∀ x ∈ R.image m,
      (k.setInstr n.1 i).op? x.1 = some ⟨x.2, t⟩ ∧ x.2.region? = m.2.region? := by
    intro m hm t ht x hx
    rw [hR.image m hm, List.mem_singleton] at hx
    by_cases hmn : m.1 = n.1
    · obtain rfl := hnode m hm hmn
      rw [if_pos rfl] at hx
      subst hx
      rw [hs, Option.some.injEq, Op.mk.injEq] at ht
      rw [hop, if_pos rfl, ht.2]
      exact ⟨rfl, hi⟩
    · rw [if_neg hmn] at hx
      subst hx
      rw [hop, if_neg hmn]
      exact ⟨ht, rfl⟩
  apply h.rewrite
  constructor
  case leaf =>
    intro m hm hmi t ht x hx
    rw [← Rewriting.image_leaf _ hmi] at hx
    have hx' := himage m hm t ht x hx
    exact ⟨hx'.1, hx'.2.trans hmi⟩
  case head =>
    intro a l hl t ht
    exact (himage _ hl t ht (a, .loop (R.head a l)) (by simp [Rewriting.image_loop])).1
  case top =>
    intro a l hl x hx
    rw [hR.top] at hx
    simp at hx
  case lists =>
    intro r G hG
    rw [hlists, h.regionOps_level hG, hR.top, Forest.prepend_nil,
      Forest.tops_rewrite (f := fun x => [x]) (hG.plain h.plain) ?_ fun _ _ _ => rfl]
    · simp
    · intro m hm hmi
      have himg := hR.image m (hG.nodes_subset hm)
      have hleaf : R.image m = R.leaf m.1 m.2 := R.image_leaf hmi
      rw [← hleaf, himg]
      split <;> simp_all
  case root => exact hR.top _
  case owner => simp [owner?, region?, regions_setInstr]
  case rooted => simpa [region?, regions_setInstr] using h.rooted
  case size => exact Nat.le_of_eq (size_ops_setInstr k n.1 i).symm
  case fresh =>
    intro m hm x hx
    rw [hR.image m hm, List.mem_singleton] at hx
    split at hx <;> simp_all
  case nodup =>
    refine Forest.nodup_rewrite h.plain h.nodup (fun m hm => ?_) fun m hm m' hm' x hx y hy hxy => ?_
    · simp [hR.image m hm]
    · rw [hR.image m hm, List.mem_singleton] at hx
      rw [hR.image m' hm', List.mem_singleton] at hy
      split at hx <;> split at hy <;> simp_all
  case complete =>
    intro x hx
    have hlive : k.isLive x := by
      rw [isLive, hop] at hx
      split at hx
      · rename_i hxn
        simp [isLive, hxn, hs]
      · exact hx
    obtain ⟨j, hj⟩ := Forest.exists_mem_nodes (h.complete x hlive)
    have hmem : (if x = n.1 then (n.1, i) else (x, j)) ∈ (F.rewrite R).nodes :=
      (Forest.mem_nodes_rewrite h.plain).mpr ⟨_, hj, by simp [hR.image _ hj]⟩
    have hx' := Forest.mem_ids_of_mem_nodes hmem
    split at hx' <;> simp_all

end SlotRotation.Kernel
