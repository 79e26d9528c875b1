import SlotRotation.Kernel.DefUse
import SlotRotation.Proofs.Visibility

/-! The operands that read a value, as a list in the order of the walk. The snapshot lists the same uses as the
kernel it was taken of. -/

namespace SlotRotation

namespace Forest

def usesIn (v : ValueId) (n : Node) : List Use :=
  n.2.operands.zipIdx.filterMap fun (used, operand) => if used = v then some ⟨n.1, operand⟩ else none

def uses (F : Forest) (v : ValueId) : List Use := F.nodes.flatMap (usesIn v)

theorem mem_usesIn {v : ValueId} {n : Node} {use : Use} :
    use ∈ usesIn v n ↔ use.user = n.1 ∧ n.2.operands[use.operand]? = some v := by
  rw [usesIn, List.mem_filterMap]
  constructor
  · rintro ⟨⟨used, operand⟩, hmem, huse⟩
    have hmem' := List.mem_zipIdx_iff_getElem?.mp hmem
    by_cases hv : used = v
    · simp only [hv, if_true, Option.some.injEq] at huse
      rw [← huse]
      exact ⟨rfl, hv ▸ hmem'⟩
    · simp [hv] at huse
  · rintro ⟨huser, hv⟩
    refine ⟨(v, use.operand), List.mem_zipIdx_iff_getElem?.mpr hv, ?_⟩
    simp [← huser]

theorem mem_uses {F : Forest} {v : ValueId} {use : Use} :
    use ∈ F.uses v ↔ ∃ i, (use.user, i) ∈ F.nodes ∧ i.operands[use.operand]? = some v := by
  rw [uses, List.mem_flatMap]
  constructor
  · rintro ⟨n, hn, huse⟩
    obtain ⟨huser, hv⟩ := mem_usesIn.mp huse
    rw [huser]
    exact ⟨n.2, hn, hv⟩
  · rintro ⟨i, hn, hv⟩
    exact ⟨_, hn, mem_usesIn.mpr ⟨rfl, hv⟩⟩

theorem nodup_uses {F : Forest} (hF : F.ids.Nodup) (v : ValueId) : (F.uses v).Nodup := by
  rw [uses, List.nodup_flatMap]
  constructor
  · intro n _
    have hpair : n.2.operands.zipIdx.Pairwise fun a b => a.2 ≠ b.2 := by
      rw [← List.pairwise_map (f := Prod.snd) (R := fun a b => a ≠ b), List.zipIdx_map_snd]
      exact List.nodup_range'
    have hplace : ∀ {p : ValueId × Nat} {use : Use}, (if p.1 = v then some ⟨n.1, p.2⟩ else none) = some use →
        use.operand = p.2 := by
      intro p use h
      by_cases hv : p.1 = v
      · simp only [hv, if_true, Option.some.injEq] at h
        rw [← h]
      · simp [hv] at h
    rw [usesIn, List.Nodup, List.pairwise_filterMap]
    refine hpair.imp fun {a b} hab use huse use' huse' e => hab ?_
    rw [← hplace huse, ← hplace huse', e]
  · have hpair : F.nodes.Pairwise fun m n => m.1 ≠ n.1 := List.pairwise_map.mp hF
    refine hpair.imp fun {m n} hne => ?_
    intro use hm hn
    exact hne ((mem_usesIn.mp hm).1.symm.trans (mem_usesIn.mp hn).1)

end Forest

namespace Kernel

variable {k : Kernel} {F : Forest}

theorem Arranges.usesOf_eq (h : Arranges k F) (v : ValueId) : k.usesOf v = F.uses v := by
  have hlive : k.liveInOrder.map (fun n => (n.1, n.2.instr)) = F.nodes := by
    rw [liveInOrder, h.preorder_eq, Forest.ids, List.filterMap_map, List.map_filterMap]
    refine (List.filterMap_congr fun n hn => ?_).trans (List.filterMap_some)
    obtain ⟨s, hs⟩ := h.placed.op? hn
    simp [hs]
  rw [usesOf, Forest.uses, ← hlive, List.flatMap_map]
  rfl

end Kernel

namespace DefUse

theorem usesOf_addUse (s : DefUse) (value v : ValueId) (use : Use) :
    (s.addUse value use).usesOf v = s.usesOf v ++ if value = v then [use] else [] := by
  simp only [usesOf, addUse, Std.TreeMap.getElem?_alter, Std.LawfulEqCmp.compare_eq_iff_eq]
  by_cases h : value = v
  · subst h
    cases s.uses[value]? <;> simp
  · simp [h]

theorem usesOf_addUses (id : OpId) (operands : List (ValueId × Nat)) (s : DefUse) (v : ValueId) :
    (operands.foldl (fun s (value, operand) => s.addUse value { user := id, operand }) s).usesOf v =
      s.usesOf v ++ operands.filterMap fun (used, operand) => if used = v then some ⟨id, operand⟩ else none := by
  induction operands generalizing s with
  | nil => simp
  | cons p operands ih =>
    rw [List.foldl_cons, ih, usesOf_addUse, List.filterMap_cons]
    split <;> simp_all

theorem usesOf_addOp (s : DefUse) (id : OpId) (op : Op) (v : ValueId) :
    (s.addOp id op).usesOf v = s.usesOf v ++ Forest.usesIn v (id, op.instr) := by
  have hdef : ((op.instr.result?.map (s.addDefinition id)).getD s).usesOf v = s.usesOf v := by
    cases op.instr.result? <;> rfl
  rw [addOp, usesOf_addUses, hdef]
  rfl

theorem usesOf_ofKernel {k : Kernel} {F : Forest} (h : k.Arranges F) (v : ValueId) :
    (ofKernel k).usesOf v = F.uses v := by
  have hfold : ∀ (nodes : List Node) (start : Nat) (s : DefUse), (∀ n ∈ nodes, n ∈ F.nodes) →
      (((nodes.map Prod.fst).zipIdx start).foldl (fun s n => s.add k n.1 n.2) s).usesOf v =
        s.usesOf v ++ nodes.flatMap (Forest.usesIn v) := by
    intro nodes
    induction nodes with
    | nil => simp
    | cons n nodes ih =>
      intro start s hmem
      obtain ⟨r, hr⟩ := h.placed.op? (hmem n (List.mem_cons_self ..))
      have hadd : (s.add k n.1 start).usesOf v = s.usesOf v ++ Forest.usesIn v n := by
        rw [add, hr]
        exact usesOf_addOp (s.addRank n.1 start) n.1 ⟨n.2, r⟩ v
      rw [List.map_cons, List.zipIdx_cons, List.foldl_cons, ih _ _ fun m hm => hmem m (List.mem_cons_of_mem _ hm),
        hadd, List.flatMap_cons, List.append_assoc]
  have hall := hfold F.nodes 0 {} fun n hn => hn
  rw [ofKernel, h.preorder_eq]
  exact hall

end DefUse
end SlotRotation
