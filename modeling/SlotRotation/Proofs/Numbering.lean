import SlotRotation.Proofs.Operands

/-! Operand numbers. The list of operands and the access to a single one count them alike: what is put at a number is
found at that place of the list, and nothing else about the instruction has changed. -/

namespace SlotRotation.Instr

variable (f : Nat → ValueId → ValueId) (instr : Instr)

/-- Instructions of one kind that can be told apart by the values of their operands only. -/
structure Alike (i j : Instr) : Prop where
  kind : j.ctorIdx = i.ctorIdx
  mnemonic : j.mnemonic = i.mnemonic
  result : j.result? = i.result?
  region : j.region? = i.region?
  alloc : j.alloc? = i.alloc?
  depth : j.loop?.bind Loop.depth = i.loop?.bind Loop.depth
  effects : ∀ n, j.effectsOn n = i.effectsOn n

theorem alike_mapOperands : instr.Alike (instr.mapOperands f) where
  kind := by cases instr <;> rfl
  mnemonic := by cases instr <;> rfl
  result := result?_mapOperands f instr
  region := region?_mapOperands f instr
  alloc := alloc?_mapOperands f instr
  depth := by cases instr <;> rfl
  effects := effectsOn_mapOperands f instr

/-- There is an operand to exchange at every number below the count of the operands and at no other. What is given
back is the operand of that number, and the new one takes its place on the list. -/
theorem exchange?_at_number (instr : Instr) (n : Nat) (value : ValueId) :
    ((instr.exchange? n value).isSome ↔ n < instr.operands.length) ∧
      ∀ old instr', instr.exchange? n value = some (old, instr') →
        instr.operands[n]? = some old ∧ instr'.operands = instr.operands.set n value ∧ instr.Alike instr' := by
  rw [exchange?_eq]
  refine ⟨by simp, fun old instr' h => ?_⟩
  obtain ⟨found, hfound, heq⟩ := Option.map_eq_some_iff.mp h
  cases heq
  refine ⟨hfound, ?_, alike_mapOperands _ instr⟩
  rw [operands_mapOperands, mapIdx_ite_eq_set]

/-- The first output of a computation follows its inputs, and the index of a selection follows its slots. -/
theorem exchange?_at_number_boundary :
    let product := compute "gemm" [⟨1⟩, ⟨2⟩] [⟨3⟩]
    let selection := selectSlot ⟨10⟩ [⟨1⟩, ⟨2⟩] ⟨5⟩
    (∃ product', product.exchange? 2 ⟨9⟩ = some (⟨3⟩, product') ∧ product'.operands = [⟨1⟩, ⟨2⟩, ⟨9⟩] ∧
        product.Alike product') ∧
      ∃ selection', selection.exchange? 2 ⟨6⟩ = some (⟨5⟩, selection') ∧ selection'.operands = [⟨1⟩, ⟨2⟩, ⟨6⟩] ∧
        selection.Alike selection' := by
  intro product selection
  obtain ⟨-, hproduct⟩ := exchange?_at_number product 2 ⟨9⟩
  obtain ⟨-, hselection⟩ := exchange?_at_number selection 2 ⟨6⟩
  exact ⟨⟨_, rfl, (hproduct _ _ rfl).2⟩, _, rfl, (hselection _ _ rfl).2⟩

end SlotRotation.Instr
