import SlotRotation.Proofs.Goodness
import SlotRotation.Proofs.Linking

/-! Erasing takes out one op with all that is under it, and nothing else: what is under it is found by a walk down
the region lists, and these are the ops that no walk from the top comes by any more. An op that is inserted and
erased again leaves no trace on the lists. -/

namespace SlotRotation

theorem erase_insertIdx {α : Type} [DecidableEq α] {a : α} {l : List α} (h : a ∉ l) (n : Nat) :
    (l.insertIdx n a).erase a = l := by
  induction l generalizing n with
  | nil => cases n <;> simp
  | cons b l ih =>
    obtain ⟨hne, hl⟩ := not_or.mp (mt List.mem_cons.mpr h)
    cases n with
    | zero => simp
    | succ n => rw [List.insertIdx_succ_cons, List.erase_cons_tail (by simpa using Ne.symm hne), ih hl]

theorem Forest.length_ids {F : Forest} (hF : F.ids.Nodup) (x : OpId) :
    F.ids.length = (F.prune x).ids.length + (F.subtree x).length := by
  have hnodup : (F.subtree x).Nodup := hF.sublist (subtree_sublist x F)
  have hperm : (F.ids.filter (· ∈ F.subtree x)).Perm (F.subtree x) := by
    rw [List.perm_ext_iff_of_nodup (hF.filter _) hnodup]
    intro y
    rw [List.mem_filter, decide_eq_true_iff]
    exact ⟨fun hy => hy.2, fun hy => ⟨mem_ids_of_mem_subtree hy, hy⟩⟩
  have hsplit := F.ids.length_eq_length_filter_add (· ∈ F.subtree x)
  rw [hperm.length_eq, Nat.add_comm] at hsplit
  rw [ids_prune hF, hsplit]
  simp only [decide_not]

namespace Kernel

variable {k k' : Kernel} {F : Forest} {x : OpId} {op : Op}

theorem nodup_liveOps (k : Kernel) : (k.liveOps.map Prod.fst).Nodup := by
  have hsublist : (k.liveOps.map fun entry => entry.1.index).Sublist (k.ops.toList.zipIdx.map Prod.snd) := by
    unfold liveOps
    induction k.ops.toList.zipIdx with
    | nil => exact .slnil
    | cons entry entries ih =>
      obtain ⟨op, index⟩ := entry
      cases op with
      | none => exact ih.cons _
      | some op => exact ih.cons_cons _
  refine List.Nodup.of_map OpId.index ?_
  rw [List.map_map]
  refine List.Nodup.sublist hsublist ?_
  rw [List.zipIdx_map_snd]
  exact List.nodup_range'

theorem Arranges.opCount_eq (h : Arranges k F) : k.opCount = F.ids.length := by
  have hperm : (k.liveOps.map Prod.fst).Perm F.ids := by
    rw [List.perm_ext_iff_of_nodup k.nodup_liveOps h.nodup]
    intro id
    rw [← h.isLive_iff, isLive, Option.isSome_iff_exists, List.mem_map]
    constructor
    · rintro ⟨⟨_, op⟩, hmem, rfl⟩
      exact ⟨op, mem_liveOps_iff.mp hmem⟩
    · rintro ⟨op, hop⟩
      exact ⟨(id, op), mem_liveOps_iff.mpr hop, rfl⟩
  rw [opCount, ← hperm.length_eq, List.length_map]

/-- `k'` is `k` without `x` and the ops under it. The lists meant are those of the kernel itself and of its loops. -/
structure Cuts (k k' : Kernel) (x : OpId) : Prop where
  dead : ∀ y, k.isLive y ∧ ¬k'.isLive y ↔ y ∈ x :: k.descendants x
  kept : ∀ y, y ∉ x :: k.descendants x → k'.op? y = k.op? y
  lists : ∀ r, (r = body ∨ ∃ a l, k'.loop? a = some l ∧ l.body = r) →
    k'.regionOps r = (k.regionOps r).filter (· ∉ x :: k.descendants x)
  walk : k'.preorder = k.preorder.filter (· ∉ x :: k.descendants x)
  count : k.opCount = k'.opCount + (1 + (k.descendants x).length)

theorem Arranges.lists_remove (h : Arranges k F) (hop : k.op? x = some op) {r : RegionId}
    (hr : r = body ∨ ∃ a l, (k.remove x op).loop? a = some l ∧ l.body = r) :
    (k.remove x op).regionOps r = (k.regionOps r).filter (· ∉ x :: k.descendants x) := by
  have hx : x ∈ F.ids := h.isLive_iff.mp (by simp [isLive, hop])
  have hpruned := h.remove hop
  have hlist : (k.remove x op).regionOps r = (k.regionOps r).filter (· ≠ x) := by
    rcases hr with rfl | ⟨a, l, hl, rfl⟩
    · exact h.regionOps_remove_level hop (Or.inl ⟨rfl, rfl⟩) (by simp [h.root])
    · obtain ⟨hl', hnot⟩ := (Forest.mem_nodes_prune h.nodup).mp (hpruned.loop?_eq_some_iff.mp hl)
      obtain ⟨B, hB⟩ := Forest.exists_holds h.plain hl'
      refine h.regionOps_remove_level hop (Or.inr ⟨a, l, hB, rfl⟩) ?_
      rw [h.owner?_of_mem hl' rfl, ne_eq, Option.some.injEq]
      rintro rfl
      exact hnot (by rw [h.subtree_eq hx]; exact List.mem_cons_self)
  obtain ⟨G, hG⟩ := hpruned.level_of_loop? hr
  rw [hlist]
  refine List.filter_congr fun y hy => decide_eq_decide.mpr ⟨fun hne => ?_, fun hnot heq => ?_⟩
  · -- whatever is on a list of what is left is itself left
    have hmem : y ∈ (k.remove x op).regionOps r := hlist ▸ List.mem_filter.mpr ⟨hy, decide_eq_true hne⟩
    rw [hpruned.regionOps_level hG] at hmem
    obtain ⟨i, hi⟩ := Forest.exists_mem_nodes (Forest.mem_ids_of_mem_tops hmem)
    rw [← h.subtree_eq hx]
    exact ((Forest.mem_nodes_prune h.nodup).mp (hG.nodes_subset hi)).2
  · exact hnot (heq ▸ List.mem_cons_self)

theorem Arranges.cuts (h : Arranges k F) (hop : k.op? x = some op) : Cuts k (k.remove x op) x := by
  have hx : x ∈ F.ids := h.isLive_iff.mp (by simp [isLive, hop])
  have hpruned := h.remove hop
  refine ⟨fun y => ?_, fun y hy => ?_, fun r hr => h.lists_remove hop hr, ?_, ?_⟩
  · rw [h.isLive_iff, hpruned.isLive_iff, Forest.mem_ids_prune h.nodup, ← h.subtree_eq hx]
    exact ⟨fun hy => not_not.mp fun hout => hy.2 ⟨hy.1, hout⟩,
      fun hy => ⟨Forest.mem_ids_of_mem_subtree hy, fun hleft => hleft.2 hy⟩⟩
  · rw [op?_remove, if_neg (by simpa [or_comm] using hy)]
  · rw [hpruned.preorder_eq, h.preorder_eq, Forest.ids_prune h.nodup, h.subtree_eq hx]
  · rw [h.opCount_eq, hpruned.opCount_eq, Forest.length_ids h.nodup x, h.subtree_eq hx, List.length_cons,
      Nat.add_comm 1]

structure Restores (k k' : Kernel) : Prop where
  ops : ∀ y, k'.op? y = k.op? y
  lists : ∀ r, k'.regionOps r = k.regionOps r

theorem Grafts.restores {n : Node} {r : RegionId} {m : Nat} (hk : Grafts k k' n r m) (h : Arranges k F)
    (hhomed : k.Homed) (hid : n.1 = k.nextOp) (hleaf : n.2.region? = none) :
    Restores k (k'.remove n.1 ⟨n.2, r⟩) := by
  have hnew : k'.op? n.1 = some ⟨n.2, r⟩ := by rw [hk.op?, if_pos rfl]
  have hunder : k'.descendants n.1 = [] := by simp [descendants, nested?, instr?, hnew, hleaf]
  have hfree : k.op? n.1 = none := by
    rw [hid, Kernel.op?, nextOp, Array.getElem?_eq_none (Nat.le_refl _)]
    rfl
  have hunnamed : ∀ s, n.1 ∉ k.regionOps s := fun s hmem => by
    have hlt := (hhomed s n.1 hmem).1
    rw [hid] at hlt
    exact Nat.lt_irrefl _ hlt
  -- ids are not used again, so no region is owned by the op that was next
  have howner : ∀ s, k'.owner? s ≠ some n.1 := by
    intro s hs
    rw [hk.owner, hleaf, if_neg (by simp)] at hs
    have hlt := (h.owner s n.1 hs).1
    rw [hid] at hlt
    exact Nat.lt_irrefl _ hlt
  refine ⟨fun y => ?_, fun s => ?_⟩
  · rw [Kernel.op?_remove, hunder, List.nil_append, hk.op?]
    by_cases hy : y = n.1
    · rw [if_pos (List.mem_singleton.mpr hy), hy, hfree]
    · rw [if_neg (by simpa using hy), if_neg hy]
  · rw [regionOps_remove (howner s), hk.list]
    by_cases hs : s = r
    · rw [if_pos hs, if_pos hs, erase_insertIdx (hunnamed s)]
    · rw [if_neg hs, if_neg hs]

/-- Whatever was done to a built kernel, a live op can be erased, and what goes is the op and all that is under it.
An op that is no loop, inserted at a place that is live and erased again, leaves all ops and lists as they were. -/
theorem erase_cuts {name : String} {location : Location} {stmts : List Stmt}
    (h : Relation.ReflTransGen Edited (build name location stmts) k) :
    (∀ x, k.isLive x → ∃ k', Edit.erase x k = .ok () k' ∧ Cuts k k' x) ∧
      ∀ i point, i.region? = none → k.Stands point →
        ∃ id k₁ k₂, Edit.insert i point k = .ok id k₁ ∧ Edit.erase id k₁ = .ok () k₂ ∧ Restores k k₂ := by
  obtain ⟨⟨F, hF⟩, hhomed⟩ := exists_arranges h
  have herase : ∀ {k x op}, k.op? x = some op → Edit.erase x k = .ok () (k.remove x op) := by
    intro k x op hop
    simp only [Edit.erase, getOp, hop]
  refine ⟨fun x hx => ?_, fun i point hi hpoint => ?_⟩
  · obtain ⟨op, hop⟩ := Option.isSome_iff_exists.mp hx
    exact ⟨_, herase hop, hF.cuts hop⟩
  · have hvacant : ∀ s, i.region? = some s → k.Vacant s := fun s hs => by cases hi.symm.trans hs
    obtain ⟨k₁, r, m, hrun, -, -, hgrafts⟩ := hF.insert_stands hhomed hpoint hvacant
    have hop : k₁.op? k.nextOp = some ⟨i, r⟩ := by rw [hgrafts.op?, if_pos rfl]
    exact ⟨_, _, _, hrun, herase hop, hgrafts.restores hF hhomed rfl hi⟩

/-- A loop in a loop: with the outer one goes all that is in the inner one, and a barrier put in between leaves no
trace. -/
theorem erase_cuts_nested :
    let k := build "nest" .unknown
      [.constant 0, .loop ⟨0⟩ ⟨0⟩ ⟨0⟩ none [.loop ⟨0⟩ ⟨0⟩ ⟨0⟩ none [.barrier], .barrier], .ret]
    k.preorder = [⟨0⟩, ⟨6⟩, ⟨3⟩, ⟨1⟩, ⟨2⟩, ⟨4⟩, ⟨5⟩, ⟨7⟩] ∧
      (∃ k', Edit.erase ⟨6⟩ k = .ok () k' ∧ k'.preorder = [⟨0⟩, ⟨7⟩] ∧ k.opCount = k'.opCount + 6) ∧
      ∃ id k₁ k₂, Edit.insert .barrier (.last ⟨2⟩) k = .ok id k₁ ∧ Edit.erase id k₁ = .ok () k₂ ∧ Restores k k₂ := by
  intro k
  have hwalk : k.preorder = [⟨0⟩, ⟨6⟩, ⟨3⟩, ⟨1⟩, ⟨2⟩, ⟨4⟩, ⟨5⟩, ⟨7⟩] := by decide +kernel
  have hunder : k.descendants ⟨6⟩ = [⟨3⟩, ⟨1⟩, ⟨2⟩, ⟨4⟩, ⟨5⟩] := by decide +kernel
  have hpoint : k.Stands (.last ⟨2⟩) := by
    refine Or.inr ⟨⟨3⟩, { induction := ⟨2⟩, lower := ⟨0⟩, upper := ⟨0⟩, step := ⟨0⟩, body := ⟨2⟩ }, ?_, rfl⟩
    decide +kernel
  obtain ⟨herase, hinsert⟩ := erase_cuts (k := k) .refl
  obtain ⟨k', hrun, hcuts⟩ := herase ⟨6⟩ (by decide +kernel)
  refine ⟨hwalk, ⟨k', hrun, ?_, ?_⟩, hinsert .barrier _ rfl hpoint⟩
  · rw [hcuts.walk, hwalk, hunder]
    decide
  · rw [hcuts.count, hunder]
    rfl

end Kernel
end SlotRotation
