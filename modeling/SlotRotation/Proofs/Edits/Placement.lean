import SlotRotation.Proofs.Edits.Alter
import SlotRotation.Proofs.Edits.Erase
import SlotRotation.Proofs.Edits.Insert

/-! Changes of a kernel that stores a forest. New ops that go one behind the other to a point are one placing;
erasures are one dropping. -/

namespace SlotRotation

namespace Forest

theorem rewrite_placing_nil {F : Forest} (hF : F.Plain) (p : InsertPoint) : F.rewrite (.placing p []) = F := by
  refine rewrite_eq_self hF fun n _ => ?_
  obtain ⟨id, i⟩ := n
  cases i <;> simp [Rewriting.image, Rewriting.placing]

/-- Ops that go behind the last of those just placed are placed together with them. -/
theorem rewrite_placing_past {F : Forest} (hF : F.Plain) {p : InsertPoint} {ns ms : List Node}
    (hns : (ns.map Prod.fst).Nodup) (hfresh : ∀ n ∈ ns, n.1 ∉ F.ids) :
    (F.rewrite (.placing p ns)).rewrite (.placing (p.past (ns.map Prod.fst)) ms) =
      F.rewrite (.placing p (ns ++ ms)) := by
  rcases List.eq_nil_or_concat' ns with rfl | ⟨init, x, rfl⟩
  · rw [rewrite_placing_nil hF]
    rfl
  have hpast : p.past ((init ++ [x]).map Prod.fst) = .after x.1 := by simp [InsertPoint.past]
  have hinit : x.1 ∉ init.map Prod.fst := by
    rw [List.map_append, List.nodup_append] at hns
    intro hx
    exact hns.2.2 _ hx x.1 (by simp) rfl
  rw [hpast, rewrite_rewrite]
  generalize hS : Rewriting.placing (.after x.1) ms = S
  have hleaf : ∀ n : Node, n.1 ≠ x.1 → S.leaf n.1 n.2 = [n] := by
    intro n hn
    simp [← hS, Rewriting.leaf_placing, hn.symm]
  have hself : S.leaf x.1 x.2 = x :: ms := by simp [← hS, Rewriting.leaf_placing]
  have hflat : ((init ++ [x]).flatMap fun n => S.leaf n.1 n.2) = (init ++ [x]) ++ ms := by
    have hid : (init.flatMap fun n => S.leaf n.1 n.2) = init.flatMap fun n => [n] :=
      List.flatMap_congr fun n hn => hleaf n fun e => hinit (e ▸ List.mem_map_of_mem hn)
    rw [List.flatMap_append, hid]
    simp [hself]
  have hpart : ∀ (c : Prop) [Decidable c], ((if c then init ++ [x] else []).flatMap fun n => S.leaf n.1 n.2) =
      if c then (init ++ [x]) ++ ms else [] := by
    intro c _
    split
    · exact hflat
    · rfl
  refine rewrite_congr hF fun n hn => ?_
  have hne : n.1 ≠ x.1 := fun e => hfresh x (by simp) (e ▸ mem_ids_of_mem_nodes hn)
  cases hr : n.2.region? with
  | none =>
    have himage : ∀ R : Rewriting, R.image n = R.leaf n.1 n.2 := fun R => R.image_leaf hr
    rw [himage, himage, Rewriting.leaf_andThen, Rewriting.leaf_placing, Rewriting.leaf_placing, List.flatMap_append,
      List.flatMap_cons, hpart, hpart, hleaf n hne]
    rfl
  | some r =>
    obtain ⟨id, i⟩ := n
    cases i with
    | loop l =>
      have htop : S.top l.body = [] := by simp [← hS, Rewriting.top_placing]
      have hhead : ∀ m, S.head id m = m := fun m => by rw [← hS]; rfl
      rw [Rewriting.image_andThen_loop, Rewriting.image_loop, htop, hhead, Rewriting.top_placing,
        Rewriting.top_placing, hpart]
      rfl
    | _ => cases hr

theorem Anchors.rewrite_placing {F : Forest} (hF : F.Plain) {p : InsertPoint} (hp : F.Anchors p) {ns : List Node}
    (hns : ∀ n ∈ ns, n.2.region? = none) :
    (F.rewrite (.placing p ns)).Anchors (p.past (ns.map Prod.fst)) := by
  rcases List.eq_nil_or_concat' ns with rfl | ⟨init, x, rfl⟩
  · rw [rewrite_placing_nil hF]
    exact hp
  · have hpast : p.past ((init ++ [x]).map Prod.fst) = .after x.1 := by simp [InsertPoint.past]
    obtain ⟨m, hm, hhost⟩ := hp.exists_host
    rw [hpast]
    refine ⟨x.2, (mem_nodes_rewrite hF).mpr ⟨m, hm, mem_image_placing.mpr (Or.inr ⟨?_, hhost⟩)⟩, hns x ?_⟩ <;> simp

theorem rewrite_dropping_nil {F : Forest} (hF : F.Plain) : F.rewrite (.dropping []) = F := by
  refine rewrite_eq_self hF fun n _ => ?_
  obtain ⟨id, i⟩ := n
  cases i <;> simp [Rewriting.image, Rewriting.dropping]

theorem rewrite_dropping_append {F : Forest} (hF : F.Plain) (as bs : List OpId) :
    (F.rewrite (.dropping as)).rewrite (.dropping bs) = F.rewrite (.dropping (as ++ bs)) := by
  rw [rewrite_rewrite]
  refine rewrite_congr hF fun n _ => ?_
  obtain ⟨id, i⟩ := n
  cases i with
  | loop l => simp [Rewriting.image, Rewriting.dropping, Rewriting.andThen]
  | _ =>
    by_cases ha : id ∈ as <;> by_cases hb : id ∈ bs <;>
      simp [Rewriting.image, Rewriting.dropping, Rewriting.andThen, ha, hb]

end Forest

namespace Kernel

variable {k k' k₁ k₂ : Kernel} {F : Forest}

/-- Nothing is forgotten: ids stay used and values keep their types. -/
structure Extends (k k' : Kernel) : Prop where
  ops : k.ops.size ≤ k'.ops.size
  values : k.values.size ≤ k'.values.size
  types : ∀ v ty, k.typeOf? v = some ty → k'.typeOf? v = some ty

theorem Extends.refl (k : Kernel) : Extends k k := ⟨Nat.le_refl _, Nat.le_refl _, fun _ _ h => h⟩

theorem Extends.trans (h : Extends k k₁) (h' : Extends k₁ k₂) : Extends k k₂ :=
  ⟨Nat.le_trans h.ops h'.ops, Nat.le_trans h.values h'.values, fun v ty hv => h'.types v ty (h.types v ty hv)⟩

theorem extends_of_values (hops : k.ops.size ≤ k'.ops.size) (hvalues : k'.values = k.values) : Extends k k' := by
  refine ⟨hops, Nat.le_of_eq (by rw [hvalues]), fun v ty h => ?_⟩
  rw [← h, typeOf?, typeOf?, value?, value?, hvalues]

theorem recorded?_of_values (h : k'.values = k.values) (v : ValueId) : k'.recorded? v = k.recorded? v := by
  rw [recorded?, recorded?, value?, value?, h]

theorem lt_size_of_recorded? {v : ValueId} {id : OpId} (h : k.recorded? v = some id) : v.index < k.values.size := by
  rcases Nat.lt_or_ge v.index k.values.size with hlt | hge
  · exact hlt
  · simp [recorded?, value?, Array.getElem?_eq_none hge] at h

namespace Stores

theorem result_lt (h : Stores k F) {n : Node} (hn : n ∈ F.nodes) {v : ValueId} (hv : n.2.result? = some v) :
    v.index < k.values.size :=
  lt_size_of_recorded? (h.defined n hn v hv)

theorem addValue (h : Stores k F) (ty : ValueType) : Stores (k.addValue ty) F := by
  have hrec : ∀ v, (k.addValue ty).recorded? v = k.recorded? v := by
    intro v
    simp only [recorded?, value?, Kernel.addValue, Array.getElem?_push]
    split
    · rename_i hv
      simp [Array.getElem?_eq_none (Nat.le_of_eq hv.symm)]
    · rfl
  have hplaced : ∀ {r G}, k.Placed r G → (k.addValue ty).Placed r G := by
    intro r G hG
    induction G generalizing r with
    | nil => trivial
    | op id i rest ih => exact ⟨hG.1, hG.2.1, ih hG.2.2⟩
    | loop id l body rest ihb ihr => exact ⟨hG.1, hG.2.1, hG.2.2.1, ihb hG.2.2.2.1, ihr hG.2.2.2.2⟩
  exact ⟨⟨h.top, hplaced h.placed, h.nodup, h.complete, h.owner, h.root, h.rooted⟩,
    fun n hn v hv => (hrec v).trans (h.defined n hn v hv), fun v id hv => h.definition v id ((hrec v).symm.trans hv)⟩

theorem insert (h : Stores k F) {p : InsertPoint} (hp : F.Anchors p) {instr : Instr} (hi : instr.region? = none)
    (hv : ∀ v, instr.result? = some v → v.index < k.values.size ∧ ∀ n ∈ F.nodes, n.2.result? ≠ some v) :
    ∃ k', Edit.insert instr p k = .ok k.nextOp k' ∧ Stores k' (F.rewrite (.placing p [(k.nextOp, instr)])) ∧
      k'.ops.size = k.ops.size + 1 ∧ k'.values = (k.define instr k.nextOp).values := by
  obtain ⟨k', hrun, harr, hsize, hvalues⟩ := h.toArranges.insert hp hi
  refine ⟨k', hrun, ⟨harr, fun n hn v hnv => ?_, fun v id hid => ?_⟩, hsize, hvalues⟩
  · rw [recorded?_of_values hvalues, recorded?_define]
    obtain ⟨m, hm, hmn⟩ := (Forest.mem_nodes_rewrite h.plain).mp hn
    rcases Forest.mem_image_placing.mp hmn with rfl | ⟨hmn, -⟩
    · rw [if_neg fun hc => (hv v hc.1).2 n hm hnv]
      exact h.defined n hm v hnv
    · rw [List.mem_singleton] at hmn
      subst hmn
      exact if_pos ⟨hnv, (hv v hnv).1⟩
  · rw [recorded?_of_values hvalues, recorded?_define] at hid
    rw [hsize]
    split at hid
    · rename_i hc
      cases hid
      refine ⟨Nat.lt_succ_self _, fun i hin => ?_⟩
      obtain ⟨m, hm, hmn⟩ := (Forest.mem_nodes_rewrite h.plain).mp hin
      rcases Forest.mem_image_placing.mp hmn with rfl | ⟨hmn, -⟩
      · exact absurd (Forest.mem_ids_of_mem_nodes hm) h.nextOp_notMem
      · rw [List.mem_singleton, Prod.mk.injEq] at hmn
        rw [hmn.2]
        exact hc.1
    · obtain ⟨hlt, hres⟩ := h.definition v id hid
      refine ⟨Nat.lt_succ_of_lt hlt, fun i hin => ?_⟩
      obtain ⟨m, hm, hmn⟩ := (Forest.mem_nodes_rewrite h.plain).mp hin
      rcases Forest.mem_image_placing.mp hmn with rfl | ⟨hmn, -⟩
      · exact hres i hm
      · rw [List.mem_singleton, Prod.mk.injEq] at hmn
        rw [hmn.1] at hlt
        exact absurd hlt (Nat.lt_irrefl _)

theorem of_subset (h : Stores k F) {G : Forest} (harr : Arranges k' G) (hsize : k'.ops.size = k.ops.size)
    (hvalues : k'.values = k.values)
    (hsub : ∀ n ∈ G.nodes, ∃ i, (n.1, i) ∈ F.nodes ∧ i.result? = n.2.result?) : Stores k' G := by
  refine ⟨harr, fun n hn v hv => ?_, fun v id hid => ?_⟩
  · obtain ⟨i, hi, hres⟩ := hsub n hn
    rw [recorded?_of_values hvalues]
    exact h.defined _ hi v (hres.trans hv)
  · rw [recorded?_of_values hvalues] at hid
    obtain ⟨hlt, hdef⟩ := h.definition v id hid
    refine ⟨hsize ▸ hlt, fun i hi => ?_⟩
    obtain ⟨j, hj, hres⟩ := hsub _ hi
    exact hres.symm.trans (hdef j hj)

theorem erase (h : Stores k F) {n : Node} (hn : n ∈ F.nodes) (hi : n.2.region? = none) :
    ∃ k', Edit.erase n.1 k = .ok () k' ∧ Stores k' (F.rewrite (.dropping [n.1])) ∧
      k'.ops.size = k.ops.size ∧ k'.values = k.values := by
  obtain ⟨k', hrun, harr, hsize, hvalues⟩ := h.toArranges.erase hn hi
  refine ⟨k', hrun, h.of_subset harr hsize hvalues fun m hm => ?_, hsize, hvalues⟩
  obtain ⟨m', hm', hmem⟩ := (Forest.mem_nodes_rewrite h.plain).mp hm
  rw [h.image_dropping hn hi m' hm'] at hmem
  split at hmem
  · simp at hmem
  · rw [List.mem_singleton] at hmem
    subst hmem
    exact ⟨m.2, hm', rfl⟩

theorem setInstr (h : Stores k F) {n : Node} (hn : n ∈ F.nodes) {i : Instr} (hi : i.region? = n.2.region?)
    (hres : i.result? = n.2.result?) {R : Rewriting} (hR : Alters R F n.1 i) :
    Stores (k.setInstr n.1 i) (F.rewrite R) := by
  refine h.of_subset (h.toArranges.setInstr hn hi hR) (size_ops_setInstr ..) (values_setInstr ..) fun m hm => ?_
  obtain ⟨m', hm', hmem⟩ := (Forest.mem_nodes_rewrite h.plain).mp hm
  rw [hR.image m' hm', List.mem_singleton] at hmem
  split at hmem
  · subst hmem
    exact ⟨n.2, hn, hres.symm⟩
  · subst hmem
    exact ⟨m.2, hm', rfl⟩

/-- An op takes over the result of another one, which goes. In between the value has two definitions. -/
theorem supplant (h : Stores k F) {p : InsertPoint} (hp : F.Anchors p) {instr : Instr} (hi : instr.region? = none)
    {o : Node} (ho : o ∈ F.nodes) (hoi : o.2.region? = none) {v : ValueId} (hv : instr.result? = some v)
    (hov : o.2.result? = some v) :
    ∃ k₁ k', Edit.insert instr p k = .ok k.nextOp k₁ ∧ Edit.erase o.1 k₁ = .ok () k' ∧
      Stores k' ((F.rewrite (.placing p [(k.nextOp, instr)])).rewrite (.dropping [o.1])) ∧ Extends k k' ∧
      k.ops.size < k'.ops.size := by
  obtain ⟨k₁, hrun, harr, hsize, hvalues⟩ := h.toArranges.insert hp hi
  have ho₁ : o ∈ (F.rewrite (.placing p [(k.nextOp, instr)])).nodes :=
    (Forest.mem_nodes_rewrite h.plain).mpr ⟨o, ho, Forest.mem_image_placing.mpr (Or.inl rfl)⟩
  obtain ⟨k', hrun', harr', hsize', hvalues'⟩ := harr.erase ho₁ hoi
  have hrec : ∀ w, k'.recorded? w = if w = v then some k.nextOp else k.recorded? w := by
    intro w
    have hlt := h.result_lt ho hov
    rw [recorded?_of_values (hvalues'.trans hvalues), recorded?_define, hv]
    by_cases hwv : w = v
    · subst hwv
      rw [if_pos ⟨rfl, hlt⟩, if_pos rfl]
    · rw [if_neg fun hc => hwv (Option.some.inj hc.1).symm, if_neg hwv]
  have hnodes : ∀ n ∈ ((F.rewrite (.placing p [(k.nextOp, instr)])).rewrite (.dropping [o.1])).nodes,
      n = (k.nextOp, instr) ∨ (n ∈ F.nodes ∧ n.1 ≠ o.1) := by
    intro n hn
    obtain ⟨m, hm, hmn⟩ := (Forest.mem_nodes_rewrite harr.plain).mp hn
    rw [harr.image_dropping ho₁ hoi m hm] at hmn
    split at hmn
    · simp at hmn
    · rename_i hne
      rw [List.mem_singleton] at hmn
      subst hmn
      obtain ⟨m', hm', hmn'⟩ := (Forest.mem_nodes_rewrite h.plain).mp hm
      rcases Forest.mem_image_placing.mp hmn' with rfl | ⟨hmn', -⟩
      · exact Or.inr ⟨hm', hne⟩
      · exact Or.inl (List.mem_singleton.mp hmn')
  refine ⟨k₁, k', hrun, hrun', ⟨harr', fun n hn w hw => ?_, fun w id hid => ?_⟩, ?_, ?_⟩
  · rw [hrec]
    rcases hnodes n hn with rfl | ⟨hn', hne⟩
    · rw [hv, Option.some.injEq] at hw
      rw [if_pos hw.symm]
    · have hwv : w ≠ v := by
        rintro rfl
        exact hne (congrArg Prod.fst (h.result_unique hn' ho hw hov))
      rw [if_neg hwv]
      exact h.defined n hn' w hw
  · rw [hrec] at hid
    rw [hsize', hsize]
    split at hid
    · rename_i hwv
      cases hid
      refine ⟨Nat.lt_succ_self _, fun i hin => ?_⟩
      rcases hnodes _ hin with e | ⟨hn', -⟩
      · rw [(Prod.mk.inj e).2, hv, hwv]
      · exact absurd (Forest.mem_ids_of_mem_nodes hn') h.nextOp_notMem
    · obtain ⟨hlt, hres⟩ := h.definition w id hid
      refine ⟨Nat.lt_succ_of_lt hlt, fun i hin => ?_⟩
      rcases hnodes _ hin with e | ⟨hn', -⟩
      · rw [(Prod.mk.inj e).1] at hlt
        exact absurd hlt (Nat.lt_irrefl _)
      · exact hres i hn'
  · refine ⟨by rw [hsize', hsize]; exact Nat.le_succ _, ?_, fun w ty hw => ?_⟩
    · exact Nat.le_of_eq (by rw [hvalues', hvalues, size_values_define])
    · rw [← hw, ← typeOf?_define k instr k.nextOp, typeOf?, typeOf?, value?, value?, hvalues', hvalues]
  · rw [hsize', hsize]
    exact Nat.lt_succ_self _

end Stores
end Kernel
end SlotRotation
