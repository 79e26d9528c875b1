import SlotRotation.Proofs.Runs

/-! Kernels that differ in a few ops. Some ops are gone and some are new, none of them a loop; every other op is in
its region still, at its place among the others, and reads what it read up to a renaming of operands. -/

namespace SlotRotation

def Op.reading (f : Use → ValueId → ValueId) (x : OpId) (op : Op) : Op :=
  { op with instr := op.instr.mapOperands fun j => f ⟨x, j⟩ }

theorem Op.reading_id (x : OpId) (op : Op) : op.reading (fun _ v => v) x = op := by
  unfold Op.reading
  rw [Instr.mapOperands_id]

theorem Op.map_reading_id (x : OpId) (op : Option Op) : op.map (Op.reading (fun _ v => v) x) = op := by
  cases op with
  | none => rfl
  | some op => rw [Option.map_some, Op.reading_id]

theorem Op.reading_reading (f g : Use → ValueId → ValueId) (x : OpId) (op : Op) :
    (op.reading f x).reading g x = op.reading (fun use v => g use (f use v)) x := by
  unfold Op.reading
  rw [Instr.mapOperands_mapOperands]

namespace Kernel

variable {N : Nat} {k k' k₁ k₂ : Kernel} {F : Forest} {R : Rewriting} {p : InsertPoint} {ns : List Node}
  {gone gone' new new' : List OpId} {f g : Use → ValueId → ValueId} {x : OpId}

/-- The op is live, it is no loop, and what it releases, if anything, is a value from id `N` on. -/
def Lodged (N : Nat) (k : Kernel) (x : OpId) : Prop :=
  ∃ i, k.instr? x = some i ∧ i.region? = none ∧ ∀ v, i = .dealloc v → N ≤ v.index

theorem Lodged.op? (h : k.Lodged N x) : ∃ op, k.op? x = some op := by
  obtain ⟨i, hi, -⟩ := h
  obtain ⟨op, hop, -⟩ := Option.map_eq_some_iff.mp hi
  exact ⟨op, hop⟩

theorem Lodged.isLive (h : k.Lodged N x) : k.isLive x = true := by
  obtain ⟨op, hop⟩ := h.op?
  rw [Kernel.isLive, hop]
  rfl

theorem Lodged.index_lt (h : k.Lodged N x) : x.index < k.ops.size := by
  obtain ⟨op, hop⟩ := h.op?
  exact lt_size_of_op? hop

theorem Lodged.node (h : k.Lodged N x) (hF : Arranges k F) : ∃ i, (x, i) ∈ F.nodes ∧ i.region? = none := by
  obtain ⟨i, hi, hleaf, -⟩ := h
  exact ⟨i, hF.mem_nodes_iff.mpr hi, hleaf⟩

theorem Lodged.of_op? (h : k.Lodged N x) (hop : k'.op? x = k.op? x) : k'.Lodged N x := by
  obtain ⟨i, hi, hrest⟩ := h
  refine ⟨i, ?_, hrest⟩
  unfold instr? at hi ⊢
  rw [hop, hi]

theorem Lodged.of_reading (h : k.Lodged N x) (hop : k'.op? x = (k.op? x).map (Op.reading f x))
    (hf : ∀ use v, N ≤ v.index → N ≤ (f use v).index) : k'.Lodged N x := by
  obtain ⟨i, hi, hleaf, hrelease⟩ := h
  obtain ⟨op, hkop, rfl⟩ := Option.map_eq_some_iff.mp hi
  refine ⟨op.instr.mapOperands fun j => f ⟨x, j⟩, ?_, ?_, fun v hv => ?_⟩
  · unfold instr?
    rw [hop, hkop]
    rfl
  · rw [Instr.region?_mapOperands]
    exact hleaf
  · -- only a release is renamed to a release
    cases hinstr : op.instr with
    | dealloc w =>
      rw [hinstr] at hv
      cases hv
      exact hf _ w (hrelease w hinstr)
    | _ =>
      rw [hinstr] at hv
      cases hv

theorem Lodged.not_loop (h : k.Lodged N x) : ¬(k.loop? x).isSome := by
  obtain ⟨i, hi, hleaf, -⟩ := h
  unfold loop?
  rw [hi]
  cases i with
  | loop l => cases hleaf
  | _ => exact Bool.false_ne_true

theorem exists_op?_of_loop? (h : (k.loop? x).isSome) : ∃ op, k.op? x = some op := by
  cases hop : k.op? x with
  | some op => exact ⟨op, rfl⟩
  | none => simp [loop?, instr?, hop] at h

theorem isSome_loop?_of_reading (h : (k.loop? x).isSome) (hop : k'.op? x = (k.op? x).map (Op.reading f x)) :
    (k'.loop? x).isSome := by
  obtain ⟨op, hkop⟩ := exists_op?_of_loop? h
  simp only [loop?, instr?, hop, hkop, Option.map_some, Option.bind_some] at h ⊢
  cases hinstr : op.instr with
  | loop l => simp [Op.reading, hinstr, Instr.mapOperands, Instr.loop?]
  | _ => simp [hinstr, Instr.loop?] at h

/-- `k'` is `k` with the ops `gone` taken out and the ops `new` put in. -/
structure Swaps (N : Nat) (gone new : List OpId) (f : Use → ValueId → ValueId) (k k' : Kernel) : Prop
    extends Extends k k' where
  op? : ∀ x, x ∉ gone → x ∉ new → k'.op? x = (k.op? x).map (Op.reading f x)
  erased : ∀ x ∈ gone, k.Lodged N x ∧ k'.op? x = none
  fresh : ∀ x ∈ new, k.ops.size ≤ x.index ∧ k'.Lodged N x
  nodup : new.Nodup
  order : k'.preorder.filter (· ∉ new) = k.preorder.filter (· ∉ gone)
  raises : ∀ use v, N ≤ v.index → N ≤ (f use v).index

namespace Swaps

theorem refl (N : Nat) (k : Kernel) : Swaps N [] [] (fun _ v => v) k k :=
  { Extends.refl k with
    op? := fun x _ _ => (Op.map_reading_id x (k.op? x)).symm
    erased := by simp
    fresh := by simp
    nodup := List.nodup_nil
    order := rfl
    raises := fun _ _ hv => hv }

theorem notMem_new (h : Swaps N gone new f k k') (hx : x.index < k.ops.size) : x ∉ new := fun hmem =>
  absurd hx (Nat.not_lt.mpr (h.fresh x hmem).1)

theorem op?_of_lt (h : Swaps N gone new f k k') (hx : x.index < k.ops.size) (hgone : x ∉ gone) :
    k'.op? x = (k.op? x).map (Op.reading f x) := h.op? x hgone (h.notMem_new hx)

theorem op?_eq (h : Swaps N gone new (fun _ v => v) k k') (hgone : x ∉ gone) (hnew : x ∉ new) :
    k'.op? x = k.op? x := by
  rw [h.op? x hgone hnew, Op.map_reading_id]

theorem notMem_new_iff (h : Swaps N gone new f k k') (hlive : k'.isLive x) (hgone : x ∉ gone) :
    x ∉ new ↔ k.isLive x := by
  constructor
  · intro hnew
    rw [Kernel.isLive, h.op? x hgone hnew, Option.isSome_map] at hlive
    exact hlive
  · intro hold
    obtain ⟨op, hop⟩ := Option.isSome_iff_exists.mp hold
    exact h.notMem_new (lt_size_of_op? hop)

theorem lodged (h : Swaps N gone new f k k') (hx : k.Lodged N x) (hgone : x ∉ gone) : k'.Lodged N x :=
  hx.of_reading (h.op?_of_lt hx.index_lt hgone) h.raises

theorem loop? (h : Swaps N gone new f k k') {a : OpId} (hl : (k.loop? a).isSome) : (k'.loop? a).isSome := by
  have hgone : a ∉ gone := fun hmem => (h.erased a hmem).1.not_loop hl
  obtain ⟨op, hop⟩ := exists_op?_of_loop? hl
  exact isSome_loop?_of_reading hl (h.op?_of_lt (lt_size_of_op? hop) hgone)

theorem congr_gone (h : Swaps N gone new f k k') (hmem : ∀ x, x ∈ gone' ↔ x ∈ gone) : Swaps N gone' new f k k' :=
  { h with
    op? := fun x hgone => h.op? x fun hx => hgone ((hmem x).mpr hx)
    erased := fun x hx => h.erased x ((hmem x).mp hx)
    order := by simp only [h.order, hmem] }

theorem trans (h : Swaps N gone new f k k₁) (h' : Swaps N gone' new' g k₁ k₂)
    (hold : ∀ x ∈ gone', k.Lodged N x) :
    Swaps N (gone ++ gone') (new ++ new') (fun use v => g use (f use v)) k k₂ := by
  refine { h.toExtends.trans h'.toExtends with
    op? := fun x hgone hnew => ?_, erased := fun x hx => ?_, fresh := fun x hx => ?_, nodup := ?_, order := ?_
    raises := fun use v hv => h'.raises use _ (h.raises use v hv) }
  · rw [List.mem_append, not_or] at hgone hnew
    rw [h'.op? x hgone.2 hnew.2, h.op? x hgone.1 hnew.1, Option.map_map]
    congr 1
    funext op
    exact Op.reading_reading f g x op
  · by_cases hlate : x ∈ gone'
    · exact ⟨hold x hlate, (h'.erased x hlate).2⟩
    · have hearly := h.erased x ((List.mem_append.mp hx).resolve_right hlate)
      refine ⟨hearly.1, ?_⟩
      rw [h'.op?_of_lt (Nat.lt_of_lt_of_le hearly.1.index_lt h.ops) hlate, hearly.2]
      rfl
  · rcases List.mem_append.mp hx with hx | hx
    · obtain ⟨hle, hlodged⟩ := h.fresh x hx
      exact ⟨hle, h'.lodged hlodged fun hgone => Nat.not_lt.mpr hle (hold x hgone).index_lt⟩
    · obtain ⟨hle, hlodged⟩ := h'.fresh x hx
      exact ⟨Nat.le_trans h.ops hle, hlodged⟩
  · apply List.nodup_append.mpr
    refine ⟨h.nodup, h'.nodup, fun a ha b hb hab => ?_⟩
    have hlt := (h.fresh a ha).2.index_lt
    rw [hab] at hlt
    exact Nat.not_lt.mpr (h'.fresh b hb).1 hlt
  · calc k₂.preorder.filter (· ∉ new ++ new')
        = (k₂.preorder.filter (· ∉ new')).filter (· ∉ new) := by
          rw [List.filter_filter]
          simp only [List.mem_append, not_or, Bool.decide_and]
      _ = (k₁.preorder.filter (· ∉ new)).filter (· ∉ gone') := by
          rw [h'.order, List.filter_filter, List.filter_filter]
          simp only [Bool.and_comm]
      _ = k.preorder.filter (· ∉ gone ++ gone') := by
          rw [h.order, List.filter_filter]
          simp only [List.mem_append, not_or, Bool.decide_and, Bool.and_comm]

/-- Where the second swap takes out what the first put in, nothing has changed. -/
theorem op?_undo {N' : Nat} (h : Swaps N gone new (fun _ v => v) k k₁)
    (h' : Swaps N' gone' new' (fun _ v => v) k₁ k₂) (hgone : x ∉ gone) (hnew : x ∉ new')
    (hmid : x ∈ new ↔ x ∈ gone') : k₂.op? x = k.op? x := by
  by_cases hx : x ∈ new
  · have hnone : k.op? x = none := by
      cases hop : k.op? x with
      | none => rfl
      | some op => exact absurd hx (h.notMem_new (lt_size_of_op? hop))
    rw [(h'.erased x (hmid.mp hx)).2, hnone]
  · rw [h'.op?_eq (fun hmem => hx (hmid.mpr hmem)) hnew, h.op?_eq hgone hx]

theorem order_undo {N' : Nat} (h : Swaps N gone new f k k₁) (h' : Swaps N' gone' new' g k₁ k₂) {apart : List OpId}
    (hgone : ∀ x ∉ apart, x ∉ gone) (hnew : ∀ x ∉ apart, x ∉ new') (hmid : ∀ x ∉ apart, (x ∈ new ↔ x ∈ gone')) :
    k₂.preorder.filter (· ∉ apart) = k.preorder.filter (· ∉ apart) := by
  have hsub : ∀ {ids : List OpId}, (∀ x ∉ apart, x ∉ ids) → ∀ xs : List OpId,
      xs.filter (· ∉ apart) = (xs.filter (· ∉ ids)).filter (· ∉ apart) := by
    intro ids hids xs
    rw [List.filter_filter]
    apply List.filter_congr
    intro x _
    by_cases hapart : x ∈ apart
    · simp [hapart]
    · simp [hapart, hids x hapart]
  calc k₂.preorder.filter (· ∉ apart)
      = (k₁.preorder.filter (· ∉ gone')).filter (· ∉ apart) := by rw [hsub hnew, h'.order]
    _ = (k₁.preorder.filter (· ∉ new)).filter (· ∉ apart) := by
        rw [List.filter_filter, List.filter_filter]
        apply List.filter_congr
        intro x _
        by_cases hapart : x ∈ apart
        · simp [hapart]
        · simp [hapart, hmid x hapart]
    _ = k.preorder.filter (· ∉ apart) := by rw [h.order, ← hsub hgone]

end Swaps

theorem placed_prepend {r : RegionId} : k.Placed r (Forest.prepend ns F) ↔
    (∀ m ∈ ns, k.op? m.1 = some ⟨m.2, r⟩ ∧ m.2.region? = none) ∧ k.Placed r F := by
  induction ns with
  | nil => simp
  | cons n ns ih =>
    show (k.op? n.1 = some ⟨n.2, r⟩ ∧ n.2.region? = none ∧ k.Placed r (Forest.prepend ns F)) ↔ _
    rw [ih, List.forall_mem_cons, and_assoc, and_assoc]

theorem Placed.op?_rewrite {r : RegionId} (h : k.Placed r F) (h' : k'.Placed r (F.rewrite R)) {n m : Node}
    (hn : n ∈ F.nodes) (hm : m ∈ R.image n) (hhead : ∀ l, n.2 = .loop l → m = (n.1, .loop (R.head n.1 l))) :
    ∃ s, k.op? n.1 = some ⟨n.2, s⟩ ∧ k'.op? m.1 = some ⟨m.2, s⟩ := by
  induction F generalizing r with
  | nil => cases hn
  | op id i rest ih =>
    obtain ⟨hself, hrest⟩ := placed_prepend.mp h'
    rcases List.mem_cons.mp hn with rfl | hn
    · rw [R.image_leaf h.2.1] at hm
      exact ⟨r, h.1, (hself m hm).1⟩
    · exact ih h.2.2 hrest hn
  | loop id l body rest ihb ihr =>
    have hbody : (R.head id l).body = l.body := (R.head_frame id l).1
    obtain ⟨hself, -, -, hplaced, hrest⟩ := h'
    rw [hbody] at hplaced
    simp only [Forest.nodes, List.mem_cons, List.mem_append] at hn
    rcases hn with rfl | hn | hn
    · rw [hhead l rfl]
      exact ⟨r, h.1, hself⟩
    · exact ihb h.2.2.2.1 (placed_prepend.mp hplaced).2 hn
    · exact ihr h.2.2.2.2 hrest hn

/-- A rewriting swaps ops if all that comes from an op, new ops apart, is the op itself, or nothing if it is gone. -/
theorem Arranges.swaps (h : Arranges k F) (h' : Arranges k' (F.rewrite R)) (hk : Extends k k')
    (himage : ∀ n ∈ F.nodes, (R.image n).filter (fun m => m.1 ∉ new) =
      if n.1 ∈ gone then [] else [(n.1, n.2.mapOperands fun j => f ⟨n.1, j⟩)])
    (hgone : ∀ x ∈ gone, k.Lodged N x) (hfresh : ∀ x ∈ new, k.ops.size ≤ x.index ∧ k'.Lodged N x)
    (hnodup : new.Nodup) (hraises : ∀ use v, N ≤ v.index → N ≤ (f use v).index) : Swaps N gone new f k k' := by
  have horder : (F.rewrite R).ids.filter (· ∉ new) = F.ids.filter (· ∉ gone) := by
    unfold Forest.ids
    rw [Forest.nodes_rewrite h.plain]
    generalize F.nodes = nodes at himage
    induction nodes with
    | nil => rfl
    | cons n nodes ih =>
      rw [List.flatMap_cons, List.map_append, List.filter_append,
        ih fun m hm => himage m (List.mem_cons_of_mem _ hm), List.filter_map, List.map_cons, List.filter_cons]
      have hn := himage n List.mem_cons_self
      have hself : ((R.image n).filter ((fun x => decide (x ∉ new)) ∘ Prod.fst)).map Prod.fst =
          if n.1 ∈ gone then [] else [n.1] := by
        refine (congrArg (List.map Prod.fst) hn).trans ?_
        split <;> rfl
      rw [hself]
      by_cases hmem : n.1 ∈ gone <;> simp [hmem]
  have hlive : ∀ x, x ∉ new → (k'.isLive x ↔ x ∈ F.ids ∧ x ∉ gone) := by
    intro x hx
    have hiff : x ∈ (F.rewrite R).ids.filter (· ∉ new) ↔ x ∈ F.ids.filter (· ∉ gone) := by rw [horder]
    rw [List.mem_filter, List.mem_filter] at hiff
    rw [h'.isLive_iff]
    simpa [hx] using hiff
  refine { hk with
    op? := fun x hx hnew => ?_, erased := fun x hx => ⟨hgone x hx, ?_⟩, fresh := hfresh, nodup := hnodup
    order := by rw [h'.preorder_eq, h.preorder_eq, horder], raises := hraises }
  · by_cases hmem : x ∈ F.ids
    · obtain ⟨i, hi⟩ := Forest.exists_mem_nodes hmem
      have hself := himage (x, i) hi
      rw [if_neg hx] at hself
      have himg : (x, i.mapOperands fun j => f ⟨x, j⟩) ∈ (R.image (x, i)).filter fun m => m.1 ∉ new := by
        rw [hself]
        exact List.mem_singleton_self _
      obtain ⟨s, hs, hs'⟩ := h.placed.op?_rewrite h'.placed hi (List.mem_filter.mp himg).1 fun l hl => by
        obtain rfl : i = .loop l := hl
        rw [R.image_loop, List.filter_cons_of_pos (by simpa using hnew), List.cons.injEq] at hself
        exact hself.1.symm
      rw [hs, hs']
      rfl
    · have hdead : ∀ {k₀ : Kernel}, ¬k₀.isLive x → k₀.op? x = none := by
        intro k₀ hdead
        simpa [Kernel.isLive] using hdead
      rw [hdead fun hlive' => hmem ((hlive x hnew).mp hlive').1, hdead fun hlive' => hmem (h.isLive_iff.mp hlive')]
      rfl
  · have hold : x ∉ new := fun hmem => Nat.not_lt.mpr (hfresh x hmem).1 (hgone x hx).index_lt
    have hdead : ¬k'.isLive x := fun hlive' => ((hlive x hold).mp hlive').2 hx
    simpa [Kernel.isLive] using hdead

theorem Arranges.swaps_placing (h : Arranges k F) (hp : F.Anchors p) (h' : Arranges k' (F.rewrite (.placing p ns)))
    (hk : Extends k k') (hnodup : (ns.map Prod.fst).Nodup) (hfresh : ∀ n ∈ ns, k.ops.size ≤ n.1.index)
    (hleaf : ∀ n ∈ ns, n.2.region? = none) (hrelease : ∀ n ∈ ns, ∀ v, n.2 = .dealloc v → N ≤ v.index) :
    Swaps N [] (ns.map Prod.fst) (fun _ v => v) k k' := by
  have hnew : ∀ n ∈ F.nodes, n.1 ∉ ns.map Prod.fst := by
    intro n hn hmem
    obtain ⟨m, hm, heq⟩ := List.mem_map.mp hmem
    have hlt := h.index_lt (Forest.mem_ids_of_mem_nodes hn)
    rw [← heq] at hlt
    exact Nat.not_lt.mpr (hfresh m hm) hlt
  have hnone : ∀ (c : Prop) [Decidable c], (if c then ns else []).filter (fun m => m.1 ∉ ns.map Prod.fst) = [] := by
    intro c _
    rw [List.filter_eq_nil_iff]
    intro m hm
    split at hm
    · simpa using ⟨m.2, hm⟩
    · cases hm
  apply h.swaps h' hk
  · intro n hn
    rw [if_neg List.not_mem_nil, Instr.mapOperands_id]
    cases hr : n.2.region? with
    | none =>
      have himage : (Rewriting.placing p ns).image n = (Rewriting.placing p ns).leaf n.1 n.2 :=
        Rewriting.image_leaf _ hr
      rw [himage, Rewriting.leaf_placing, List.filter_append, hnone,
        List.filter_cons_of_pos (by simpa using hnew n hn), hnone]
      rfl
    | some r =>
      obtain ⟨id, i⟩ := n
      cases i with
      | loop l =>
        rw [Rewriting.image_loop, Rewriting.top_placing, List.filter_cons_of_pos (by simpa using hnew _ hn), hnone]
        rfl
      | _ => cases hr
  · exact fun x hx => absurd hx List.not_mem_nil
  · intro x hx
    obtain ⟨n, hn, rfl⟩ := List.mem_map.mp hx
    exact ⟨hfresh n hn, n.2, h'.instr?_of_mem (hp.mem_placed h.plain hn), hleaf n hn, hrelease n hn⟩
  · exact hnodup
  · exact fun _ _ hv => hv

theorem Places.swaps (hk : Places k k' F p ns) (h : Arranges k F) (hp : F.Anchors p)
    (hrelease : ∀ n ∈ ns, ∀ v, n.2 = .dealloc v → N ≤ v.index) : Swaps N [] (ns.map Prod.fst) (fun _ v => v) k k' :=
  h.swaps_placing hp hk.stores.toArranges hk.toExtends hk.nodup (fun n hn => (hk.fresh n hn).1) hk.leaf hrelease

theorem Arranges.swaps_dropping (h : Arranges k F) (h' : Arranges k' (F.rewrite (.dropping gone)))
    (hk : Extends k k') (hlodged : ∀ x ∈ gone, k.Lodged N x) : Swaps N gone [] (fun _ v => v) k k' := by
  apply h.swaps h' hk
  · intro n hn
    rw [Instr.mapOperands_id, List.filter_eq_self.mpr (by simp)]
    by_cases hmem : n.1 ∈ gone
    · obtain ⟨i, hi, hnone⟩ := (hlodged n.1 hmem).node h
      rw [Forest.node_unique h.nodup hi hn] at hnone
      have himage : (Rewriting.dropping gone).image n = (Rewriting.dropping gone).leaf n.1 n.2 :=
        Rewriting.image_leaf _ hnone
      simp only [himage, Rewriting.leaf_dropping, hmem, if_true]
    · rw [(Rewriting.local_dropping gone).image_of_notMem hmem, if_neg hmem]
  · exact hlodged
  · exact fun x hx => absurd hx List.not_mem_nil
  · exact List.nodup_nil
  · exact fun _ _ hv => hv

theorem Arranges.swaps_rebinding (h : Arranges k F) (h' : Arranges k' (F.rewrite (.rebinding f))) (hk : Extends k k')
    (hraises : ∀ use v, N ≤ v.index → N ≤ (f use v).index) : Swaps N [] [] f k k' := by
  apply h.swaps h' hk
  · intro n hn
    rw [Rewriting.image_rebinding, if_neg List.not_mem_nil, List.filter_eq_self.mpr (by simp)]
  · exact fun x hx => absurd hx List.not_mem_nil
  · exact fun x hx => absurd hx List.not_mem_nil
  · exact List.nodup_nil
  · exact hraises

end Kernel
end SlotRotation
