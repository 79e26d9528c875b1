import SlotRotation.Proofs.Edits.Basic

/-! An op less. -/

namespace SlotRotation.Kernel

variable {k : Kernel} {F : Forest}

def without (k : Kernel) (id : OpId) (s : RegionId) : Kernel :=
  (k.updateRegion s fun r => { r with ops := r.ops.erase id }).setOp id none

theorem op?_without {id : OpId} {op : Op} (h : k.op? id = some op) (s : RegionId) (x : OpId) :
    (k.without id s).op? x = if x = id then none else k.op? x := by
  have hlt : id.index < (k.updateRegion s fun r => { r with ops := r.ops.erase id }).ops.size := lt_size_of_op? h
  rw [without, op?_setOp]
  simp only [hlt, and_true]
  rfl

theorem region?_without (k : Kernel) (id : OpId) (r s : RegionId) :
    (k.without id s).region? r =
      if r = s then (k.region? r).map fun region => { region with ops := region.ops.erase id } else k.region? r :=
  region?_updateRegion k s r _

theorem owner?_without (k : Kernel) (id : OpId) (r s : RegionId) : (k.without id s).owner? r = k.owner? r :=
  owner?_updateRegion k s r fun _ => rfl

/-- What depends neither on which ops are live nor on the regions is kept by a removal. -/
theorem remove_keeps {β : Type} (f : Kernel → β) (hclear : ∀ k x, f (setOp k x none) = f k)
    (hregion : ∀ k r g, f (updateRegion k r g) = f k) (id : OpId) (op : Op) : f (k.remove id op) = f k := by
  have hdead : ∀ (dead : List OpId) (k : Kernel), f (dead.foldl (fun k id => k.setOp id none) k) = f k := by
    intro dead
    induction dead with
    | nil => exact fun _ => rfl
    | cons x dead ih => exact fun k => (ih _).trans (hclear k x)
  unfold remove
  simp only
  split
  · exact (hregion ..).trans ((hdead _ _).trans (hregion ..))
  · exact (hdead _ _).trans (hregion ..)

theorem op?_clear (dead : List OpId) (k : Kernel) (x : OpId) :
    (dead.foldl (fun k id => k.setOp id none) k).op? x = if x ∈ dead then none else k.op? x := by
  induction dead generalizing k with
  | nil => rfl
  | cons id dead ih =>
    rw [List.foldl_cons, ih, op?_setOp]
    by_cases hx : x = id
    · subst hx
      by_cases hlt : x.index < k.ops.size
      · simp [hlt]
      · simp [hlt, op?]
    · simp [hx]

theorem op?_remove (k : Kernel) (id : OpId) (op : Op) (x : OpId) :
    (k.remove id op).op? x = if x ∈ k.descendants id ++ [id] then none else k.op? x := by
  unfold remove
  simp only
  split
  · exact op?_clear ..
  · exact op?_clear ..

theorem size_ops_remove (k : Kernel) (id : OpId) (op : Op) : (k.remove id op).ops.size = k.ops.size :=
  remove_keeps (fun k => k.ops.size) (fun _ _ => Array.size_setIfInBounds ..) (fun _ _ _ => rfl) id op

theorem values_remove (k : Kernel) (id : OpId) (op : Op) : (k.remove id op).values = k.values :=
  remove_keeps Kernel.values (fun _ _ => rfl) (fun _ _ _ => rfl) id op

theorem Arranges.remove_leaf (h : Arranges k F) {id : OpId} {op : Op} (hop : k.op? id = some op)
    (hi : op.instr.region? = none) : k.remove id op = k.without id op.region := by
  have hdesc : k.descendants id = [] := by simp [descendants, nested?, instr?, hop, hi]
  have hnode : (id, op.instr) ∈ F.nodes := h.mem_nodes_iff.mpr (by simp [instr?, hop])
  have howned : (k.without id op.region).regions.findIdx? (fun r => r.owner == some id) = none := by
    rw [Array.findIdx?_eq_none_iff]
    intro region hregion
    obtain ⟨j, hj, rfl⟩ := Array.mem_iff_getElem.mp hregion
    have howner := owner?_without k id ⟨j⟩ op.region
    rw [owner?, region?, Array.getElem?_eq_getElem hj, Option.bind_some] at howner
    rw [beq_eq_false_iff_ne]
    intro hown
    rw [(h.owner ⟨j⟩ id (howner.symm.trans hown)).2 _ hnode] at hi
    cases hi
  rw [without] at howned ⊢
  simp [remove, hdesc, howned]

theorem Arranges.image_dropping (h : Arranges k F) {n : Node} (hn : n ∈ F.nodes) (hi : n.2.region? = none) :
    ∀ m ∈ F.nodes, (Rewriting.dropping [n.1]).image m = if m.1 = n.1 then [] else [m] := by
  rintro ⟨a, j⟩ hm
  cases j with
  | loop l =>
    have hne : a ≠ n.1 := by
      rintro rfl
      rw [Forest.node_unique h.nodup hn hm] at hi
      cases hi
    rw [if_neg hne]
    rfl
  | _ => simp [Rewriting.dropping, Rewriting.image]

theorem Arranges.tops_dropping (h : Arranges k F) {n : Node} (hn : n ∈ F.nodes) (hi : n.2.region? = none)
    {r : RegionId} {G : Forest} (hG : F.Level r G) : (G.rewrite (.dropping [n.1])).tops = G.tops.erase n.1 := by
  rw [(Forest.nodup_tops (hG.nodup h.nodup)).erase_eq_filter,
    Forest.tops_rewrite (f := fun x => if x = n.1 then [] else [x]) (hG.plain h.plain)]
  · induction G.tops with
    | nil => rfl
    | cons t ts ih =>
      rw [List.flatMap_cons, ih]
      by_cases ht : t = n.1 <;> simp [ht]
  · intro m hm hmi
    simp only [Rewriting.dropping, List.mem_singleton]
    split <;> rfl
  · intro a l hl
    rw [if_neg]
    rintro rfl
    rw [Forest.node_unique h.nodup hn (hG.nodes_subset hl)] at hi
    cases hi

theorem Arranges.regionOps_without (h : Arranges k F) {x : OpId} {op : Op} (hop : k.op? x = some op) {r : RegionId}
    {G : Forest} (hG : F.Level r G) : (k.without x op.region).regionOps r = G.tops.erase x := by
  rw [← h.regionOps_level hG, regionOps, region?_without, regionOps]
  by_cases hr : r = op.region
  · rw [if_pos hr]
    cases k.region? r <;> rfl
  · rw [if_neg hr, List.erase_of_not_mem]
    intro hmem
    replace hmem : x ∈ k.regionOps r := hmem
    rw [h.regionOps_level hG] at hmem
    have hhome := h.home?_level hG hmem
    simp only [home?, hop, Option.map_some, Option.some.injEq] at hhome
    exact hr hhome.symm

theorem Arranges.follows_without (h : Arranges k F) {n : Node} (hn : n ∈ F.nodes) (hi : n.2.region? = none)
    {s : RegionId} (hs : k.op? n.1 = some ⟨n.2, s⟩) : Follows k (k.without n.1 s) F (.dropping [n.1]) := by
  have himage := h.image_dropping hn hi
  have hold : ∀ {x op}, k.op? x = some op → x ≠ n.1 → (k.without n.1 s).op? x = some op := by
    intro x op hx hne
    rw [op?_without hs, if_neg hne, hx]
  have hstays : ∀ m ∈ F.nodes, ∀ x ∈ (Rewriting.dropping [n.1]).image m, x = m ∧ m.1 ≠ n.1 := by
    intro m hm x hx
    rw [himage m hm] at hx
    split at hx
    · cases hx
    · rename_i hne
      exact ⟨List.mem_singleton.mp hx, hne⟩
  constructor
  case leaf =>
    intro m hm hmi t ht x hx
    rw [← Rewriting.image_leaf _ hmi] at hx
    obtain ⟨rfl, hne⟩ := hstays m hm x hx
    exact ⟨hold ht hne, hmi⟩
  case head =>
    intro a l hl t ht
    refine hold ht ?_
    rintro rfl
    rw [Forest.node_unique h.nodup hn hl] at hi
    cases hi
  case top =>
    intro a l hl x hx
    simp [Rewriting.dropping] at hx
  case lists =>
    intro r G hG
    exact (h.regionOps_without hs hG).trans (h.tops_dropping hn hi hG).symm
  case root => rfl
  case owner => exact fun r => owner?_without k n.1 r s
  case rooted =>
    rw [region?_without]
    split
    · simpa using h.rooted
    · exact h.rooted
  case size => simp [without, setOp, updateRegion]
  case fresh => exact fun m hm x hx => Or.inl (congrArg Prod.fst (hstays m hm x hx).1)
  case nodup =>
    refine Forest.nodup_rewrite h.plain h.nodup (fun m hm => ?_) fun m hm m' hm' x hx y hy hxy => ?_
    · rw [himage m hm]
      split <;> simp
    · rwa [(hstays m hm x hx).1, (hstays m' hm' y hy).1] at hxy
  case complete =>
    intro x hx
    have hne : x ≠ n.1 := by
      rintro rfl
      simp [isLive, op?_without hs] at hx
    rw [isLive, op?_without hs, if_neg hne] at hx
    obtain ⟨j, hj⟩ := Forest.exists_mem_nodes (h.complete x hx)
    refine Forest.mem_ids_of_mem_nodes (n := (x, j)) ((Forest.mem_nodes_rewrite h.plain).mpr ⟨_, hj, ?_⟩)
    rw [himage _ hj, if_neg hne]
    exact List.mem_singleton_self _

theorem Arranges.erase (h : Arranges k F) {n : Node} (hn : n ∈ F.nodes) (hi : n.2.region? = none) :
    ∃ k', Edit.erase n.1 k = .ok () k' ∧ Arranges k' (F.rewrite (.dropping [n.1])) ∧
      k'.ops.size = k.ops.size ∧ k'.values = k.values := by
  obtain ⟨s, hs⟩ := h.placed.op? hn
  refine ⟨k.without n.1 s, ?_, h.rewrite (h.follows_without hn hi hs), ?_, rfl⟩
  · have hget : k.getOp n.1 = .ok ⟨n.2, s⟩ := by simp [getOp, hs]
    simp [Edit.erase, hget, h.remove_leaf hs hi]
  · simp [without, setOp, updateRegion]

end SlotRotation.Kernel
