import SlotRotation.Proofs.Visibility

/-! What a change of a kernel has to do for the kernel to arrange a rewriting of the forest that it arranged before,
and what the changes do to the stores. -/

namespace SlotRotation

namespace Forest

theorem tops_rewrite {R : Rewriting} {F : Forest} {f : OpId → List OpId} (hF : F.Plain)
    (hleaf : ∀ n ∈ F.nodes, n.2.region? = none → (R.leaf n.1 n.2).map Prod.fst = f n.1)
    (hloop : ∀ id l, (id, .loop l) ∈ F.nodes → f id = [id]) : (F.rewrite R).tops = F.tops.flatMap f := by
  induction F with
  | nil => rfl
  | op id i rest ih =>
    have hi := hleaf (id, i) (List.mem_cons_self ..) hF.1
    have hrest := ih hF.2 (fun n hn => hleaf n (List.mem_cons_of_mem _ hn))
      fun a l hl => hloop a l (List.mem_cons_of_mem _ hl)
    rw [rewrite, tops_prepend, hi, hrest, tops, List.flatMap_cons]
  | loop id l body rest _ ih =>
    have hl := hloop id l (List.mem_cons_self ..)
    have hrest := ih hF.2 (fun n hn => hleaf n (List.mem_cons_of_mem _ (List.mem_append_right _ hn)))
      fun a l' hl' => hloop a l' (List.mem_cons_of_mem _ (List.mem_append_right _ hl'))
    rw [rewrite, tops, hrest, tops, List.flatMap_cons, hl, List.singleton_append]

theorem nodup_rewrite {R : Rewriting} {F : Forest} (hF : F.Plain) (hids : F.ids.Nodup)
    (hown : ∀ n ∈ F.nodes, ((R.image n).map Prod.fst).Nodup)
    (hdis : ∀ m ∈ F.nodes, ∀ n ∈ F.nodes, ∀ x ∈ R.image m, ∀ y ∈ R.image n, x.1 = y.1 → m.1 = n.1) :
    (F.rewrite R).ids.Nodup := by
  rw [ids, nodes_rewrite hF, List.map_flatMap, List.nodup_flatMap]
  refine ⟨hown, ?_⟩
  have hpair : F.nodes.Pairwise fun m n => m.1 ≠ n.1 := List.pairwise_map.mp hids
  refine hpair.imp_of_mem fun {m n} hm hn hne => ?_
  intro id hidm hidn
  obtain ⟨x, hx, rfl⟩ := List.mem_map.mp hidm
  obtain ⟨y, hy, hyx⟩ := List.mem_map.mp hidn
  exact hne (hdis m hm n hn x hx y hy hyx.symm)

end Forest

namespace Kernel

variable {k k' : Kernel} {F : Forest} {R : Rewriting}

theorem Placed.rewrite {r : RegionId} (h : k.Placed r F)
    (hleaf : ∀ n ∈ F.nodes, n.2.region? = none → ∀ s, k.op? n.1 = some ⟨n.2, s⟩ →
      ∀ m ∈ R.leaf n.1 n.2, k'.op? m.1 = some ⟨m.2, s⟩ ∧ m.2.region? = none)
    (hhead : ∀ id l, (id, .loop l) ∈ F.nodes → ∀ s, k.op? id = some ⟨.loop l, s⟩ →
      k'.op? id = some ⟨.loop (R.head id l), s⟩)
    (htop : ∀ id l, (id, .loop l) ∈ F.nodes → ∀ m ∈ R.top l.body,
      k'.op? m.1 = some ⟨m.2, l.body⟩ ∧ m.2.region? = none)
    (hlist : ∀ id l B, F.Holds id l B → k'.regionOps l.body = (Forest.prepend (R.top l.body) (B.rewrite R)).tops)
    (howner : ∀ id l, (id, .loop l) ∈ F.nodes → k'.owner? l.body = some id) : k'.Placed r (F.rewrite R) := by
  have hprepend : ∀ {s : RegionId} {ns : List Node} {G : Forest},
      (∀ m ∈ ns, k'.op? m.1 = some ⟨m.2, s⟩ ∧ m.2.region? = none) → k'.Placed s G →
        k'.Placed s (Forest.prepend ns G) := by
    intro s ns G hns hG
    induction ns with
    | nil => exact hG
    | cons n ns ih =>
      obtain ⟨hop, hreg⟩ := hns n (List.mem_cons_self ..)
      exact ⟨hop, hreg, ih fun m hm => hns m (List.mem_cons_of_mem _ hm)⟩
  induction F generalizing r with
  | nil => trivial
  | op id i rest ih =>
    refine hprepend (hleaf (id, i) (List.mem_cons_self ..) h.2.1 r h.1) (ih h.2.2 ?_ ?_ ?_ hlist ?_)
    · exact fun n hn => hleaf n (List.mem_cons_of_mem _ hn)
    · exact fun a l hl => hhead a l (List.mem_cons_of_mem _ hl)
    · exact fun a l hl => htop a l (List.mem_cons_of_mem _ hl)
    · exact fun a l hl => howner a l (List.mem_cons_of_mem _ hl)
  | loop id l body rest ihb ihr =>
    have hself : (id, .loop l) ∈ (Forest.loop id l body rest).nodes := List.mem_cons_self ..
    have hinb : ∀ {n}, n ∈ body.nodes → n ∈ (Forest.loop id l body rest).nodes := fun hn =>
      List.mem_cons_of_mem _ (List.mem_append_left _ hn)
    have hinr : ∀ {n}, n ∈ rest.nodes → n ∈ (Forest.loop id l body rest).nodes := fun hn =>
      List.mem_cons_of_mem _ (List.mem_append_right _ hn)
    have hbody : (R.head id l).body = l.body := (R.head_frame id l).1
    refine ⟨hhead id l hself r h.1, ?_, ?_, ?_, ?_⟩
    · rw [hbody]
      exact hlist id l body (Or.inl ⟨rfl, rfl, rfl⟩)
    · rw [hbody]
      exact howner id l hself
    · rw [hbody]
      refine hprepend (htop id l hself) (ihb h.2.2.2.1 ?_ ?_ ?_ ?_ ?_)
      · exact fun n hn => hleaf n (hinb hn)
      · exact fun a m hm => hhead a m (hinb hm)
      · exact fun a m hm => htop a m (hinb hm)
      · exact fun a m B hB => hlist a m B (Or.inr (Or.inl hB))
      · exact fun a m hm => howner a m (hinb hm)
    · refine ihr h.2.2.2.2 ?_ ?_ ?_ ?_ ?_
      · exact fun n hn => hleaf n (hinr hn)
      · exact fun a m hm => hhead a m (hinr hm)
      · exact fun a m hm => htop a m (hinr hm)
      · exact fun a m B hB => hlist a m B (Or.inr (Or.inr hB))
      · exact fun a m hm => howner a m (hinr hm)

/-- What a kernel `k'` has to be for it to arrange a rewriting of what `k` arranges. -/
structure Follows (k k' : Kernel) (F : Forest) (R : Rewriting) : Prop where
  leaf : ∀ n ∈ F.nodes, n.2.region? = none → ∀ s, k.op? n.1 = some ⟨n.2, s⟩ →
    ∀ m ∈ R.leaf n.1 n.2, k'.op? m.1 = some ⟨m.2, s⟩ ∧ m.2.region? = none
  head : ∀ id l, (id, .loop l) ∈ F.nodes → ∀ s, k.op? id = some ⟨.loop l, s⟩ →
    k'.op? id = some ⟨.loop (R.head id l), s⟩
  top : ∀ id l, (id, .loop l) ∈ F.nodes → ∀ m ∈ R.top l.body,
    k'.op? m.1 = some ⟨m.2, l.body⟩ ∧ m.2.region? = none
  lists : ∀ r G, F.Level r G → k'.regionOps r = (Forest.prepend (R.top r) (G.rewrite R)).tops
  root : R.top body = []
  owner : ∀ r, k'.owner? r = k.owner? r
  rooted : (k'.region? body).isSome
  size : k.ops.size ≤ k'.ops.size
  fresh : ∀ n ∈ F.nodes, ∀ m ∈ R.image n, m.1 = n.1 ∨ k.ops.size ≤ m.1.index
  nodup : (F.rewrite R).ids.Nodup
  complete : ∀ id, k'.isLive id → id ∈ (F.rewrite R).ids

theorem Arranges.rewrite (h : Arranges k F) (hk : Follows k k' F R) : Arranges k' (F.rewrite R) where
  top := by
    have htop := hk.lists body F (Or.inl ⟨rfl, rfl⟩)
    rwa [hk.root, Forest.prepend_nil] at htop
  placed := by
    refine h.placed.rewrite hk.leaf hk.head hk.top ?_ ?_
    · exact fun a l B hB => hk.lists l.body B (Or.inr ⟨a, l, hB, rfl⟩)
    · intro a l hl
      rw [hk.owner]
      exact h.owner?_of_mem hl rfl
  nodup := hk.nodup
  complete := hk.complete
  owner := by
    intro r id hid
    rw [hk.owner] at hid
    obtain ⟨hlt, hregion⟩ := h.owner r id hid
    refine ⟨Nat.lt_of_lt_of_le hlt hk.size, fun i hi => ?_⟩
    obtain ⟨m, hm, him⟩ := (Forest.mem_nodes_rewrite h.plain).mp hi
    obtain rfl : id = m.1 := (hk.fresh m hm _ him).resolve_right fun hge => absurd hlt (Nat.not_lt.mpr hge)
    have hmr := hregion m.2 hm
    obtain ⟨a, j⟩ := m
    cases j with
    | loop l =>
      rw [R.image_loop, List.mem_cons] at him
      rcases him with him | him
      · cases him
        rw [← hmr]
        exact congrArg some (R.head_frame a l).1
      · have hnone := (hk.top a l hm _ him).1
        obtain ⟨s, hs⟩ := h.placed.op? hm
        rw [hk.head a l hm s hs, Option.some.injEq, Op.mk.injEq] at hnone
        have hi' : Instr.loop (R.head a l) = i := hnone.1
        rw [← hi', ← hmr]
        exact congrArg some (R.head_frame a l).1
    | _ => cases hmr
  root := by rw [hk.owner, h.root]
  rooted := hk.rooted

section
variable (k) (instr : Instr) (id x : OpId) (r s : RegionId) (n : Nat) (v : ValueId)

@[simp] theorem ops_define : (k.define instr id).ops = k.ops := by
  unfold define; split <;> rfl

@[simp] theorem regions_define : (k.define instr id).regions = k.regions := by
  unfold define; split <;> rfl

@[simp] theorem nextOp_define : (k.define instr id).nextOp = k.nextOp := by simp [nextOp]

@[simp] theorem size_values_define : (k.define instr id).values.size = k.values.size := by
  unfold define; split <;> simp [updateValue]

@[simp] theorem typeOf?_define : (k.define instr id).typeOf? v = k.typeOf? v := by
  unfold define
  split
  · simp only [typeOf?, value?, updateValue, Array.getElem?_modify]
    split <;> cases k.values[v.index]? <;> rfl
  · rfl

theorem recorded?_define : (k.define instr id).recorded? v =
    if instr.result? = some v ∧ v.index < k.values.size then some id else k.recorded? v := by
  cases hr : instr.result? with
  | none => simp [define, hr]
  | some w =>
    have hvw : w.index = v.index ↔ w = v := by cases w; cases v; simp
    simp only [define, hr, recorded?, value?, updateValue, Array.getElem?_modify, Option.some.injEq, hvw]
    by_cases h : w = v
    · by_cases hv : v.index < k.values.size
      · simp [h, hv]
      · simp [h, hv]
    · simp [h]

theorem own_of_region?_eq_none {instr : Instr} (h : instr.region? = none) : k.own instr id = k := by
  simp [own, h]

theorem eq_nextOp_iff : x = k.nextOp ↔ x.index = k.ops.size := by cases x; simp [nextOp]

theorem op?_place : (k.place instr r n).op? x = if x = k.nextOp then some ⟨instr, r⟩ else k.op? x := by
  simp only [op?, place, updateRegion, Array.getElem?_push, eq_nextOp_iff]
  split <;> rfl

end

section
variable (k) (id x : OpId) (op : Option Op) (r s : RegionId)

theorem op?_setOp : (k.setOp id op).op? x = if x = id ∧ id.index < k.ops.size then op else k.op? x := by
  have hx : id.index = x.index ↔ x = id := by cases x; cases id; simp [eq_comm]
  simp only [op?, setOp, Array.getElem?_setIfInBounds, hx]
  by_cases h : x = id
  · subst h
    by_cases hlt : x.index < k.ops.size <;> simp [hlt]
  · simp [h]

theorem region?_updateRegion (f : Region → Region) :
    (k.updateRegion r f).region? s = if s = r then (k.region? s).map f else k.region? s := by
  have hrs : r.index = s.index ↔ s = r := by cases r; cases s; simp [eq_comm]
  simp only [region?, updateRegion, Array.getElem?_modify, hrs]

theorem owner?_updateRegion {f : Region → Region} (hf : ∀ region, (f region).owner = region.owner) :
    (k.updateRegion r f).owner? s = k.owner? s := by
  rw [owner?, region?_updateRegion, owner?]
  split <;> cases k.region? s <;> simp [hf]

end

section
variable (k) (instr : Instr) (r s : RegionId) (n : Nat)

theorem region?_place : (k.place instr r n).region? s =
    if s = r then (k.region? s).map fun region => { region with ops := region.ops.insertIdx n k.nextOp }
    else k.region? s :=
  region?_updateRegion { k with ops := k.ops.push (some { instr, region := r }) } r s _

theorem regionOps_place (hr : (k.region? r).isSome) : (k.place instr r n).regionOps s =
    if s = r then (k.regionOps s).insertIdx n k.nextOp else k.regionOps s := by
  rw [regionOps, region?_place, regionOps]
  split
  · rename_i hs
    obtain ⟨region, hregion⟩ := Option.isSome_iff_exists.mp (hs ▸ hr)
    rw [hregion]
    rfl
  · rfl

theorem owner?_place : (k.place instr r n).owner? s = k.owner? s :=
  owner?_updateRegion { k with ops := k.ops.push (some { instr, region := r }) } r s fun _ => rfl

end

theorem lt_size_of_op? {id : OpId} {op : Op} (h : k.op? id = some op) : id.index < k.ops.size := by
  rcases Nat.lt_or_ge id.index k.ops.size with hlt | hge
  · exact hlt
  · simp [op?, Array.getElem?_eq_none hge] at h

theorem op?_of_getOp {id : OpId} {op : Op} (h : k.getOp id = .ok op) : k.op? id = some op := by
  unfold getOp at h
  split at h
  · rename_i hop
    cases h
    exact hop
  · cases h

theorem Arranges.index_lt (h : Arranges k F) {id : OpId} (hid : id ∈ F.ids) : id.index < k.ops.size := by
  obtain ⟨i, hn⟩ := Forest.exists_mem_nodes hid
  obtain ⟨s, hs⟩ := h.placed.op? hn
  exact lt_size_of_op? hs

theorem Arranges.nextOp_notMem (h : Arranges k F) : k.nextOp ∉ F.ids := fun hid =>
  absurd (h.index_lt hid) (Nat.lt_irrefl _)

end Kernel
end SlotRotation
