import SlotRotation.Proofs.Edits.Placement

/-! Sequences of changes: ops placed one behind the other, ops erased one after the other, operands exchanged one by
one. -/

namespace SlotRotation

theorem bind_of_ok {ε σ α β : Type} {x : EStateM ε σ α} {f : α → EStateM ε σ β} {s s' : σ} {a : α}
    (h : x s = .ok a s') : (x >>= f) s = f a s' := by
  change EStateM.bind x f s = _
  rw [EStateM.bind, h]

theorem bind_of_error {ε σ α β : Type} {x : EStateM ε σ α} {f : α → EStateM ε σ β} {s s' : σ} {e : ε}
    (h : x s = .error e s') : (x >>= f) s = .error e s' := by
  change EStateM.bind x f s = _
  rw [EStateM.bind, h]

theorem bind_eq_ok {ε σ α β : Type} {x : EStateM ε σ α} {f : α → EStateM ε σ β} {s s' : σ} {b : β}
    (h : (x >>= f) s = .ok b s') : ∃ a t, x s = .ok a t ∧ f a t = .ok b s' := by
  cases hx : x s with
  | ok a t => exact ⟨a, t, rfl, (bind_of_ok hx).symm.trans h⟩
  | error e t => cases (bind_of_error hx).symm.trans h

namespace Kernel

variable {k k' k₁ k₂ : Kernel} {F : Forest} {p : InsertPoint}

/-- `k'` is `k` with the ops `ns`, all of them new, at a point. -/
structure Places (k k' : Kernel) (F : Forest) (p : InsertPoint) (ns : List Node) : Prop extends Extends k k' where
  stores : Stores k' (F.rewrite (.placing p ns))
  nodup : (ns.map Prod.fst).Nodup
  fresh : ∀ n ∈ ns, k.ops.size ≤ n.1.index ∧ n.1.index < k'.ops.size
  leaf : ∀ n ∈ ns, n.2.region? = none
  results : ∀ n ∈ ns, ∀ v, n.2.result? = some v → k.values.size ≤ v.index

namespace Places

variable {ns ms : List Node}

theorem nil (h : Stores k F) : Places k k F p [] :=
  { Extends.refl k with
    stores := by rw [Forest.rewrite_placing_nil h.plain]; exact h
    nodup := List.nodup_nil
    fresh := by simp
    leaf := by simp
    results := by simp }

theorem notMem (h : Stores k F) (hns : Places k k' F p ns) : ∀ n ∈ ns, n.1 ∉ F.ids := fun n hn hid =>
  absurd (h.index_lt hid) (Nat.not_lt.mpr (hns.fresh n hn).1)

theorem append (h : Stores k F) (hns : Places k k₁ F p ns)
    (hms : Places k₁ k₂ (F.rewrite (.placing p ns)) (p.past (ns.map Prod.fst)) ms) : Places k k₂ F p (ns ++ ms) := by
  refine { hns.toExtends.trans hms.toExtends with stores := ?_, nodup := ?_, fresh := ?_, leaf := ?_, results := ?_ }
  · rw [← Forest.rewrite_placing_past h.plain hns.nodup (notMem h hns)]
    exact hms.stores
  · rw [List.map_append]
    refine List.nodup_append.mpr ⟨hns.nodup, hms.nodup, ?_⟩
    intro a ha b hb hab
    obtain ⟨n, hn, rfl⟩ := List.mem_map.mp ha
    obtain ⟨m, hm, rfl⟩ := List.mem_map.mp hb
    have hlt := (hns.fresh n hn).2
    rw [hab] at hlt
    exact absurd hlt (Nat.not_lt.mpr (hms.fresh m hm).1)
  · intro n hn
    rcases List.mem_append.mp hn with hn | hn
    · exact ⟨(hns.fresh n hn).1, Nat.lt_of_lt_of_le (hns.fresh n hn).2 hms.ops⟩
    · exact ⟨Nat.le_trans hns.ops (hms.fresh n hn).1, (hms.fresh n hn).2⟩
  · intro n hn
    exact (List.mem_append.mp hn).elim (hns.leaf n) (hms.leaf n)
  · intro n hn v hv
    rcases List.mem_append.mp hn with hn | hn
    · exact hns.results n hn v hv
    · exact Nat.le_trans hns.values (hms.results n hn v hv)

theorem anchors (hF : F.Plain) (hp : F.Anchors p) (hns : Places k k' F p ns) :
    (F.rewrite (.placing p ns)).Anchors (p.past (ns.map Prod.fst)) :=
  hp.rewrite_placing hF hns.leaf

end Places

theorem alters_rebinding (hF : F.ids.Nodup) {n : Node} (hn : n ∈ F.nodes) (j : Nat) (value : ValueId) :
    Alters (.rebinding fun use v => if use = ⟨n.1, j⟩ then value else v) F n.1
      (n.2.mapOperands fun m v => if m = j then value else v) := by
  refine ⟨fun m hm => ?_, fun _ => rfl⟩
  rw [Rewriting.image_rebinding]
  by_cases hmn : m.1 = n.1
  · obtain rfl : m = n := List.inj_on_of_nodup_map hF hm hn hmn
    simp
  · simp [hmn, Instr.mapOperands_id]

namespace Stores

theorem insert_op (h : Stores k F) (hp : F.Anchors p) {i : Instr} (hi : i.region? = none)
    (hv : i.result? = none) :
    ∃ k', Edit.insert i p k = .ok k.nextOp k' ∧ Places k k' F p [(k.nextOp, i)] := by
  obtain ⟨k', hrun, hstores, hsize, hvalues⟩ := h.insert hp hi (by simp [hv])
  have hvalues' : k'.values = k.values := by rw [hvalues, define, hv]
  refine ⟨k', hrun, { extends_of_values (by rw [hsize]; exact Nat.le_succ _) hvalues' with
    stores := hstores
    nodup := List.nodup_singleton _
    fresh := ?_
    leaf := ?_
    results := ?_ }⟩
  · intro n hn
    rw [List.mem_singleton.mp hn, hsize]
    exact ⟨Nat.le_refl _, Nat.lt_succ_self _⟩
  · intro n hn
    rw [List.mem_singleton.mp hn]
    exact hi
  · intro n hn v hnv
    rw [List.mem_singleton.mp hn, hv] at hnv
    cases hnv

theorem insert_value (h : Stores k F) (hp : F.Anchors p) (ty : ValueType) {i : Instr} (hi : i.region? = none)
    (hv : i.result? = some ⟨k.values.size⟩) :
    ∃ k', Edit.insert i p (k.addValue ty) = .ok k.nextOp k' ∧ Places k k' F p [(k.nextOp, i)] ∧
      k'.typeOf? ⟨k.values.size⟩ = some ty := by
  have hsizeV : (k.addValue ty).values.size = k.values.size + 1 := by simp [Kernel.addValue]
  obtain ⟨k', hrun, hstores, hsize, hvalues⟩ := (h.addValue ty).insert hp hi (by
    rintro v hv'
    rw [hv, Option.some.injEq] at hv'
    subst hv'
    refine ⟨by rw [hsizeV]; exact Nat.lt_succ_self _, fun n hn hnv => ?_⟩
    exact absurd (h.result_lt hn hnv) (Nat.lt_irrefl _))
  have htypes : ∀ v, k'.typeOf? v = (k.addValue ty).typeOf? v := by
    intro v
    rw [← typeOf?_define (k.addValue ty) i (k.addValue ty).nextOp v, typeOf?, typeOf?, value?, value?, hvalues]
  have hnew : (k.addValue ty).typeOf? ⟨k.values.size⟩ = some ty := by simp [typeOf?, value?, Kernel.addValue]
  have hold : ∀ v t, k.typeOf? v = some t → (k.addValue ty).typeOf? v = some t := by
    intro v t hvt
    obtain ⟨value, hvalue, rfl⟩ := Option.map_eq_some_iff.mp hvt
    have hne : v.index ≠ k.values.size := by
      intro e
      simp [value?, e] at hvalue
    simp only [value?] at hvalue
    simp [typeOf?, value?, Kernel.addValue, Array.getElem?_push, hne, hvalue]
  refine ⟨k', hrun, ⟨⟨?_, ?_, ?_⟩, hstores, List.nodup_singleton _, ?_, ?_, ?_⟩, (htypes _).trans hnew⟩
  · rw [hsize]
    exact Nat.le_succ _
  · rw [hvalues, size_values_define, hsizeV]
    exact Nat.le_succ _
  · exact fun v t hvt => (htypes v).trans (hold v t hvt)
  · intro n hn
    rw [List.mem_singleton.mp hn, hsize]
    exact ⟨Nat.le_refl _, Nat.lt_succ_self _⟩
  · intro n hn
    rw [List.mem_singleton.mp hn]
    exact hi
  · intro n hn v hnv
    rw [List.mem_singleton.mp hn] at hnv
    obtain rfl : v = ⟨k.values.size⟩ := Option.some.inj (hnv.symm.trans hv)
    exact Nat.le_refl _

theorem eraseAll (h : Stores k F) {ids : List OpId} (hids : ids.Nodup)
    (hleaf : ∀ id ∈ ids, ∃ i, (id, i) ∈ F.nodes ∧ i.region? = none) :
    ∃ k', Edit.eraseAll ids k = .ok () k' ∧ Stores k' (F.rewrite (.dropping ids)) ∧
      k'.ops.size = k.ops.size ∧ k'.values = k.values := by
  induction ids generalizing k F with
  | nil => exact ⟨k, rfl, by rw [Forest.rewrite_dropping_nil h.plain]; exact h, rfl, rfl⟩
  | cons id ids ih =>
    obtain ⟨hid, hids'⟩ := List.nodup_cons.mp hids
    obtain ⟨i, hi, hnone⟩ := hleaf id (List.mem_cons_self ..)
    obtain ⟨k₁, hrun₁, hstores₁, hsize₁, hvalues₁⟩ := h.erase hi hnone
    obtain ⟨k₂, hrun₂, hstores₂, hsize₂, hvalues₂⟩ := ih hstores₁ hids' (by
      intro id' hid'
      obtain ⟨j, hj, hjnone⟩ := hleaf id' (List.mem_cons_of_mem _ hid')
      have hne : id' ≠ id := fun e => hid (e ▸ hid')
      refine ⟨j, (Forest.mem_nodes_rewrite h.plain).mpr ⟨_, hj, ?_⟩, hjnone⟩
      rw [h.image_dropping hi hnone _ hj, if_neg hne]
      exact List.mem_singleton_self _)
    refine ⟨k₂, (bind_of_ok hrun₁).trans hrun₂, ?_, hsize₂.trans hsize₁, hvalues₂.trans hvalues₁⟩
    rwa [Forest.rewrite_dropping_append h.plain] at hstores₂

theorem setOperand (h : Stores k F) {n : Node} (hn : n ∈ F.nodes) {j : Nat} {old : ValueId}
    (hold : n.2.operands[j]? = some old) (value : ValueId) :
    ∃ k', Edit.setOperand n.1 j value k = .ok old k' ∧
      Stores k' (F.rewrite (.rebinding fun use v => if use = ⟨n.1, j⟩ then value else v)) ∧
      k'.ops.size = k.ops.size ∧ k'.values = k.values := by
  obtain ⟨s, hs⟩ := h.placed.op? hn
  have hget : k.getOp n.1 = .ok ⟨n.2, s⟩ := by simp [getOp, hs]
  have hexchange := Instr.exchange?_eq n.2 j value
  rw [hold, Option.map_some] at hexchange
  refine ⟨k.setInstr n.1 (n.2.mapOperands fun m v => if m = j then value else v), ?_, ?_, size_ops_setInstr ..,
    values_setInstr ..⟩
  · simp [Edit.setOperand, hget, hexchange]
  · exact h.setInstr hn (Instr.region?_mapOperands ..) (Instr.result?_mapOperands ..)
      (alters_rebinding h.nodup hn j value)

end Stores

theorem rewrite_rebinding_rebinding {F : Forest} (hF : F.Plain) (f g : Use → ValueId → ValueId) :
    (F.rewrite (.rebinding f)).rewrite (.rebinding g) = F.rewrite (.rebinding fun use v => g use (f use v)) := by
  rw [Forest.rewrite_rewrite]
  refine Forest.rewrite_congr hF fun n _ => ?_
  rw [Rewriting.image_rebinding]
  obtain ⟨id, i⟩ := n
  cases i with
  | loop l => rfl
  | _ => simp [Rewriting.image, Rewriting.andThen, Rewriting.rebinding, Instr.mapOperands_mapOperands]

end Kernel
end SlotRotation
