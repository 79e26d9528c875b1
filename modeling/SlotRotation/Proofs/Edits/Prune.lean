import SlotRotation.Proofs.Edits.Erase

/-! An op less, with all that is under it. -/

namespace SlotRotation

namespace Forest

def subtree (x : OpId) : Forest → List OpId
  | nil => []
  | op id _ rest => if id = x then [x] else rest.subtree x
  | loop id _ body rest => if id = x then x :: body.ids else body.subtree x ++ rest.subtree x

def prune (x : OpId) : Forest → Forest
  | nil => nil
  | op id i rest => if id = x then rest.prune x else op id i (rest.prune x)
  | loop id l body rest => if id = x then rest.prune x else loop id l (body.prune x) (rest.prune x)

variable {F : Forest} {x : OpId}

theorem subtree_of_notMem (h : x ∉ F.ids) : F.subtree x = [] := by
  induction F with
  | nil => rfl
  | op id i rest ih =>
    simp only [ids_op, List.mem_cons, not_or] at h
    rw [subtree, if_neg (Ne.symm h.1), ih h.2]
  | loop id l body rest ihb ihr =>
    simp only [ids_loop, List.mem_cons, List.mem_append, not_or] at h
    rw [subtree, if_neg (Ne.symm h.1), ihb h.2.1, ihr h.2.2, List.append_nil]

theorem subtree_sublist (x : OpId) (F : Forest) : (F.subtree x).Sublist F.ids := by
  induction F with
  | nil => exact .slnil
  | op id i rest ih =>
    rw [subtree, ids_op]
    split
    · rename_i hid
      exact hid ▸ (List.nil_sublist _).cons_cons id
    · exact ih.cons id
  | loop id l body rest ihb ihr =>
    rw [subtree, ids_loop]
    split
    · rename_i hid
      exact hid ▸ (List.sublist_append_left body.ids rest.ids).cons_cons id
    · exact (ihb.append ihr).cons id

theorem mem_ids_of_mem_subtree {y : OpId} (h : y ∈ F.subtree x) : y ∈ F.ids := (subtree_sublist x F).subset h

theorem subtree_of_leaf (hF : F.ids.Nodup) {i : Instr} (hx : (x, i) ∈ F.nodes) (hi : i.region? = none) :
    F.subtree x = [x] := by
  induction F with
  | nil => simp [nodes] at hx
  | op id j rest ih =>
    rw [subtree]
    split
    · rfl
    · rename_i hid
      refine ih (nodup_op hF).2 ((List.mem_cons.mp hx).resolve_left fun heq => hid ?_)
      exact (congrArg Prod.fst heq).symm
  | loop id l body rest ihb ihr =>
    obtain ⟨hidb, hidr, hb, hr, hdis⟩ := nodup_loop hF
    simp only [nodes, List.mem_cons, List.mem_append] at hx
    rcases hx with hx | hx | hx
    · cases hx
      cases hi
    · have hmem : x ∈ body.ids := mem_ids_of_mem_nodes hx
      have hne : id ≠ x := fun e => hidb (e ▸ hmem)
      rw [subtree, if_neg hne, ihb hb hx, subtree_of_notMem (hdis x hmem), List.append_nil]
    · have hmem : x ∈ rest.ids := mem_ids_of_mem_nodes hx
      have hne : id ≠ x := fun e => hidr (e ▸ hmem)
      rw [subtree, if_neg hne, ihr hr hx, subtree_of_notMem fun h => hdis x h hmem, List.nil_append]

theorem Holds.subtree_eq {B : Forest} {l : Loop} (h : F.Holds x l B) (hF : F.ids.Nodup) :
    F.subtree x = x :: B.ids := by
  induction F with
  | nil => exact h.elim
  | op id i rest ih =>
    obtain ⟨hid, hrest⟩ := nodup_op hF
    have hmem : x ∈ rest.ids := mem_ids_of_mem_nodes (Holds.mem_nodes (F := rest) h)
    have hne : id ≠ x := fun e => hid (e ▸ hmem)
    rw [subtree, if_neg hne, ih h hrest]
  | loop id m body rest ihb ihr =>
    obtain ⟨hidb, hidr, hb, hr, hdis⟩ := nodup_loop hF
    rcases h with ⟨rfl, rfl, rfl⟩ | h | h
    · rw [subtree, if_pos rfl]
    · have hmem : x ∈ body.ids := mem_ids_of_mem_nodes (Holds.mem_nodes h)
      have hne : id ≠ x := fun e => hidb (e ▸ hmem)
      rw [subtree, if_neg hne, ihb h hb, subtree_of_notMem (hdis x hmem), List.append_nil]
    · have hmem : x ∈ rest.ids := mem_ids_of_mem_nodes (Holds.mem_nodes h)
      have hne : id ≠ x := fun e => hidr (e ▸ hmem)
      rw [subtree, if_neg hne, ihr h hr, subtree_of_notMem fun h => hdis x h hmem, List.nil_append]

theorem Holds.bodies_length_lt {B : Forest} {l : Loop} (h : F.Holds x l B) : B.bodies.length < F.bodies.length := by
  induction F with
  | nil => exact h.elim
  | op id i rest ih => exact ih h
  | loop id m body rest ihb ihr =>
    simp only [bodies, List.length_cons, List.length_append]
    rcases h with ⟨rfl, rfl, rfl⟩ | h | h
    · omega
    · have := ihb h
      omega
    · have := ihr h
      omega

theorem prune_of_notMem (h : x ∉ F.ids) : F.prune x = F := by
  induction F with
  | nil => rfl
  | op id i rest ih =>
    simp only [ids_op, List.mem_cons, not_or] at h
    rw [prune, if_neg (Ne.symm h.1), ih h.2]
  | loop id l body rest ihb ihr =>
    simp only [ids_loop, List.mem_cons, List.mem_append, not_or] at h
    rw [prune, if_neg (Ne.symm h.1), ihb h.2.1, ihr h.2.2]

theorem tops_prune (x : OpId) (F : Forest) : (F.prune x).tops = F.tops.filter (· ≠ x) := by
  induction F with
  | nil => rfl
  | op id i rest ih => by_cases h : id = x <;> simp [prune, tops, h, ih]
  | loop id l body rest _ ih => by_cases h : id = x <;> simp [prune, tops, h, ih]

theorem nodes_prune (hF : F.ids.Nodup) (x : OpId) : (F.prune x).nodes = F.nodes.filter (·.1 ∉ F.subtree x) := by
  have hall : ∀ {G : Forest} {gone : List OpId}, (∀ y ∈ G.ids, y ∉ gone) → G.nodes.filter (·.1 ∉ gone) = G.nodes :=
    fun hG => List.filter_eq_self.mpr fun n hn => decide_eq_true (hG n.1 (mem_ids_of_mem_nodes hn))
  induction F with
  | nil => rfl
  | op id i rest ih =>
    obtain ⟨hid, hrest⟩ := nodup_op hF
    by_cases h : id = x
    · subst h
      have hkeep : rest.nodes.filter (·.1 ∉ [id]) = rest.nodes := hall fun y hy => by
        rw [List.mem_singleton]
        exact fun e => hid (e ▸ hy)
      simp only [prune, subtree, nodes, if_true, prune_of_notMem hid, List.filter_cons, hkeep, List.mem_cons_self,
        not_true_eq_false, decide_false, Bool.false_eq_true, if_false]
    · have hkeep : id ∉ rest.subtree x := fun hmem => hid (mem_ids_of_mem_subtree hmem)
      simp [prune, subtree, nodes, h, ih hrest, hkeep]
  | loop id l body rest ihb ihr =>
    obtain ⟨hidb, hidr, hb, hr, hdis⟩ := nodup_loop hF
    by_cases h : id = x
    · subst h
      have hkeep : rest.nodes.filter (·.1 ∉ id :: body.ids) = rest.nodes := hall fun y hy => by
        rw [List.mem_cons, not_or]
        exact ⟨fun e => hidr (e ▸ hy), fun hmem => hdis y hmem hy⟩
      have hgone : body.nodes.filter (·.1 ∉ id :: body.ids) = [] := by
        rw [List.filter_eq_nil_iff]
        intro n hn
        simp [mem_ids_of_mem_nodes hn]
      simp only [prune, subtree, nodes, if_true, prune_of_notMem hidr, List.filter_cons, List.filter_append, hgone,
        hkeep, List.mem_cons_self, not_true_eq_false, decide_false, Bool.false_eq_true, if_false, List.nil_append]
    · have hkeep : id ∉ body.subtree x ++ rest.subtree x := fun hmem =>
        (List.mem_append.mp hmem).elim (fun hm => hidb (mem_ids_of_mem_subtree hm))
          fun hm => hidr (mem_ids_of_mem_subtree hm)
      have hbody : body.nodes.filter (·.1 ∉ body.subtree x ++ rest.subtree x) =
          body.nodes.filter (·.1 ∉ body.subtree x) := by
        refine List.filter_congr fun n hn => ?_
        have hnot : n.1 ∉ rest.subtree x := fun hm => hdis n.1 (mem_ids_of_mem_nodes hn) (mem_ids_of_mem_subtree hm)
        simp [hnot]
      have hrest : rest.nodes.filter (·.1 ∉ body.subtree x ++ rest.subtree x) =
          rest.nodes.filter (·.1 ∉ rest.subtree x) := by
        refine List.filter_congr fun n hn => ?_
        have hnot : n.1 ∉ body.subtree x := fun hm => hdis n.1 (mem_ids_of_mem_subtree hm) (mem_ids_of_mem_nodes hn)
        simp [hnot]
      simp only [prune, subtree, nodes, if_neg h, List.filter_cons, List.filter_append, hbody, hrest, ihb hb, ihr hr,
        decide_eq_true hkeep, if_true]

theorem ids_prune (hF : F.ids.Nodup) (x : OpId) : (F.prune x).ids = F.ids.filter (· ∉ F.subtree x) := by
  rw [ids, nodes_prune hF, ids, List.filter_map]
  rfl

theorem mem_nodes_prune (hF : F.ids.Nodup) {n : Node} : n ∈ (F.prune x).nodes ↔ n ∈ F.nodes ∧ n.1 ∉ F.subtree x := by
  rw [nodes_prune hF, List.mem_filter, decide_eq_true_iff]

theorem mem_ids_prune (hF : F.ids.Nodup) {y : OpId} : y ∈ (F.prune x).ids ↔ y ∈ F.ids ∧ y ∉ F.subtree x := by
  rw [ids_prune hF, List.mem_filter, decide_eq_true_iff]

theorem nodup_prune (hF : F.ids.Nodup) (x : OpId) : (F.prune x).ids.Nodup := by
  rw [ids_prune hF]
  exact hF.filter _

end Forest

namespace Kernel

variable {k k' : Kernel} {F : Forest} {x : OpId} {r : RegionId}

theorem Placed.prune (h : k.Placed r F) (hops : ∀ y ∈ (F.prune x).ids, k'.op? y = k.op? y)
    (hlists : ∀ a l, (a, .loop l) ∈ (F.prune x).nodes → k'.regionOps l.body = (k.regionOps l.body).filter (· ≠ x))
    (howners : ∀ s, k'.owner? s = k.owner? s) : k'.Placed r (F.prune x) := by
  induction F generalizing r with
  | nil => trivial
  | op id i rest ih =>
    rw [Forest.prune] at hops hlists ⊢
    split
    · rename_i hid
      rw [if_pos hid] at hops hlists
      exact ih h.2.2 hops hlists
    · rename_i hid
      rw [if_neg hid] at hops hlists
      refine ⟨(hops id (by simp)).trans h.1, h.2.1, ih h.2.2 (fun y hy => hops y (by simp [hy])) fun a l hl => ?_⟩
      exact hlists a l (List.mem_cons_of_mem _ hl)
  | loop id l body rest ihb ihr =>
    obtain ⟨hop, hlist, howner, hbody, hrest⟩ := h
    rw [Forest.prune] at hops hlists ⊢
    split
    · rename_i hid
      rw [if_pos hid] at hops hlists
      exact ihr hrest hops hlists
    · rename_i hid
      rw [if_neg hid] at hops hlists
      refine ⟨(hops id (by simp)).trans hop, ?_, (howners _).trans howner, ?_, ?_⟩
      · rw [hlists id l List.mem_cons_self, hlist, Forest.tops_prune]
      · refine ihb hbody (fun y hy => hops y (by simp [hy])) fun a m hm => hlists a m ?_
        exact List.mem_cons_of_mem _ (List.mem_append_left _ hm)
      · refine ihr hrest (fun y hy => hops y (by simp [hy])) fun a m hm => hlists a m ?_
        exact List.mem_cons_of_mem _ (List.mem_append_right _ hm)

theorem region?_remove (k : Kernel) (x : OpId) (op : Op) (s : RegionId) :
    ∃ cleared : Bool, (cleared → k.owner? s = some x) ∧ (k.remove x op).region? s = (k.region? s).map fun region =>
      { region with ops := if cleared then [] else if s = op.region then region.ops.erase x else region.ops } := by
  have hclear : ∀ (dead : List OpId) (k : Kernel),
      (dead.foldl (fun k id => k.setOp id none) k).regions = k.regions := by
    intro dead
    induction dead with
    | nil => exact fun _ => rfl
    | cons y dead ih => exact fun k => ih _
  have hlist : ∀ t, ((k.descendants x ++ [x]).foldl (fun k id => k.setOp id none)
      (k.updateRegion op.region fun r => { r with ops := r.ops.erase x })).region? t =
        (k.region? t).map fun region =>
          { region with ops := if t = op.region then region.ops.erase x else region.ops } := by
    intro t
    rw [region?, hclear]
    refine (region?_updateRegion k op.region t _).trans ?_
    split <;> simp
  unfold remove
  simp only
  split
  · rename_i owned howned
    by_cases hs : s = ⟨owned⟩
    · refine ⟨true, fun _ => ?_, ?_⟩
      · obtain ⟨hlt, hown, -⟩ := Array.findIdx?_eq_some_iff_getElem.mp howned
        have hregion := hlist s
        rw [hs, region?, Array.getElem?_eq_getElem hlt] at hregion
        obtain ⟨region, hr, heq⟩ := Option.map_eq_some_iff.mp hregion.symm
        rw [hs, owner?, hr]
        have howner : region.owner = some x := by
          rw [← heq] at hown
          simpa using hown
        exact howner
      · rw [region?_updateRegion, if_pos hs, hlist]
        cases k.region? s <;> rfl
    · refine ⟨false, by simp, ?_⟩
      rw [region?_updateRegion, if_neg hs, hlist]
      rfl
  · exact ⟨false, by simp, hlist s⟩

theorem owner?_remove (k : Kernel) (x : OpId) (op : Op) (s : RegionId) : (k.remove x op).owner? s = k.owner? s := by
  obtain ⟨cleared, -, hregion⟩ := region?_remove k x op s
  rw [owner?, hregion, owner?]
  cases k.region? s <;> rfl

theorem regionOps_remove_sublist (k : Kernel) (x : OpId) (op : Op) (s : RegionId) :
    ((k.remove x op).regionOps s).Sublist (k.regionOps s) := by
  obtain ⟨cleared, -, hregion⟩ := region?_remove k x op s
  rw [regionOps, hregion, regionOps]
  cases k.region? s with
  | none => exact .slnil
  | some region =>
    show List.Sublist (if cleared then [] else if s = op.region then region.ops.erase x else region.ops) region.ops
    split
    · exact List.nil_sublist _
    · split
      · exact List.erase_sublist
      · exact .refl _

theorem regionOps_remove {op : Op} {s : RegionId} (h : k.owner? s ≠ some x) :
    (k.remove x op).regionOps s = if s = op.region then (k.regionOps s).erase x else k.regionOps s := by
  obtain ⟨cleared, hcleared, hregion⟩ := region?_remove k x op s
  have hfalse : cleared = false := by
    cases cleared with
    | false => rfl
    | true => exact absurd (hcleared rfl) h
  rw [regionOps, hregion, hfalse, regionOps]
  cases k.region? s <;> simp

namespace Arranges

theorem preorderFrom_eq (h : Arranges k F) {l : Loop} {B : Forest} (hB : F.Holds x l B) :
    k.preorderFrom l.body = B.ids := by
  obtain ⟨hlist, -, hplaced⟩ := h.placed.holds hB
  have hlt := h.bodies_length_lt
  have hle := hB.bodies_length_lt
  obtain ⟨m, hm⟩ : ∃ m, k.regions.size = m + 1 := ⟨k.regions.size - 1, by omega⟩
  rw [preorderFrom, hm, preorderWithin, hlist]
  exact hplaced.preorderWithin_eq (by omega)

theorem subtree_eq (h : Arranges k F) (hx : x ∈ F.ids) : F.subtree x = x :: k.descendants x := by
  obtain ⟨i, hi⟩ := Forest.exists_mem_nodes hx
  have hinstr : k.instr? x = some i := h.instr?_of_mem hi
  cases hr : i.region? with
  | none => rw [Forest.subtree_of_leaf h.nodup hi hr, descendants, nested?, hinstr, Option.bind_some, hr]; rfl
  | some r =>
    cases i with
    | loop l =>
      cases hr
      obtain ⟨B, hB⟩ := Forest.exists_holds h.plain hi
      rw [hB.subtree_eq h.nodup, descendants, nested?, hinstr, ← h.preorderFrom_eq hB]
      rfl
    | _ => cases hr

theorem regionOps_remove_level (h : Arranges k F) {op : Op} (hop : k.op? x = some op) {s : RegionId} {G : Forest}
    (hG : F.Level s G) (howner : k.owner? s ≠ some x) :
    (k.remove x op).regionOps s = (k.regionOps s).filter (· ≠ x) := by
  have hnodup : (k.regionOps s).Nodup := by
    rw [h.regionOps_level hG]
    exact Forest.nodup_tops (hG.nodup h.nodup)
  have herase : (k.regionOps s).erase x = (k.regionOps s).filter (· ≠ x) := by
    rw [hnodup.erase_eq_filter]
    exact List.filter_congr fun y _ => by simp [bne, Bool.beq_eq_decide_eq]
  rw [regionOps_remove howner, ← herase]
  split
  · rfl
  · rename_i hs
    rw [List.erase_of_not_mem]
    intro hmem
    rw [h.regionOps_level hG] at hmem
    have hhome := h.home?_level hG hmem
    simp only [home?, hop, Option.map_some, Option.some.injEq] at hhome
    exact hs hhome.symm

theorem remove (h : Arranges k F) {op : Op} (hop : k.op? x = some op) : Arranges (k.remove x op) (F.prune x) := by
  have hx : x ∈ F.ids := h.isLive_iff.mp (by simp [isLive, hop])
  have hgone : ∀ y, y ∈ k.descendants x ++ [x] ↔ y ∈ F.subtree x := by
    intro y
    rw [h.subtree_eq hx, List.mem_append, List.mem_singleton, List.mem_cons, or_comm]
  have hops : ∀ y, (k.remove x op).op? y = if y ∈ F.subtree x then none else k.op? y := by
    intro y
    rw [op?_remove]
    simp only [hgone]
  refine ⟨?_, ?_, Forest.nodup_prune h.nodup x, fun y hy => ?_, fun s a ha => ?_, ?_, ?_⟩
  · rw [h.regionOps_remove_level hop (Or.inl ⟨rfl, rfl⟩) (by simp [h.root]), h.top, Forest.tops_prune]
  · refine h.placed.prune (fun y hy => ?_) (fun a l hl => ?_) fun s => owner?_remove k x op s
    · rw [hops, if_neg ((Forest.mem_ids_prune h.nodup).mp hy).2]
    · obtain ⟨hl', hnot⟩ := (Forest.mem_nodes_prune h.nodup).mp hl
      obtain ⟨B, hB⟩ := Forest.exists_holds h.plain hl'
      refine h.regionOps_remove_level hop (Or.inr ⟨a, l, hB, rfl⟩) ?_
      rw [h.owner?_of_mem hl' rfl, ne_eq, Option.some.injEq]
      rintro rfl
      exact hnot (by rw [h.subtree_eq hx]; exact List.mem_cons_self)
  · rw [isLive, hops] at hy
    split at hy
    · cases hy
    · rename_i hnot
      exact (Forest.mem_ids_prune h.nodup).mpr ⟨h.complete y hy, hnot⟩
  · rw [owner?_remove] at ha
    obtain ⟨hlt, hregion⟩ := h.owner s a ha
    refine ⟨by rw [size_ops_remove]; exact hlt, fun i hi => ?_⟩
    exact hregion i ((Forest.mem_nodes_prune h.nodup).mp hi).1
  · rw [owner?_remove, h.root]
  · obtain ⟨cleared, -, hregion⟩ := region?_remove k x op body
    rw [hregion]
    simpa using h.rooted

end Arranges
end Kernel
end SlotRotation
