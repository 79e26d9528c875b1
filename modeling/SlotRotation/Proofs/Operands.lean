import Mathlib.Data.List.GetD
import SlotRotation.Instr

/-! The operands of an instruction as a list: exchanging one of them changes that place and nothing else. -/

namespace SlotRotation.Instr

def mapOperands (f : Nat → ValueId → ValueId) : Instr → Instr
  | dealloc buffer => dealloc (f 0 buffer)
  | arith result op lhs rhs => arith result op (f 0 lhs) (f 1 rhs)
  | loop l => loop { l with lower := f 0 l.lower, upper := f 1 l.upper, step := f 2 l.step }
  | load result buffer indices => load result (f 0 buffer) (indices.mapIdx fun n => f (n + 1))
  | store value buffer indices => store (f 0 value) (f 1 buffer) (indices.mapIdx fun n => f (n + 2))
  | fill buffer value => fill (f 0 buffer) (f 1 value)
  | copy source target => copy (f 0 source) (f 1 target)
  | compute name inputs outputs =>
    compute name (inputs.mapIdx f) (outputs.mapIdx fun n => f (n + inputs.length))
  | selectSlot result slots index => selectSlot result (slots.mapIdx f) (f slots.length index)
  | instr => instr

section
variable (f g : Nat → ValueId → ValueId) (instr : Instr)

theorem operands_mapOperands : (instr.mapOperands f).operands = instr.operands.mapIdx f := by
  cases instr <;>
    simp [mapOperands, operands, List.mapIdx_cons, List.mapIdx_append]

@[simp] theorem result?_mapOperands : (instr.mapOperands f).result? = instr.result? := by
  cases instr <;> rfl

@[simp] theorem region?_mapOperands : (instr.mapOperands f).region? = instr.region? := by
  cases instr <;> rfl

@[simp] theorem isDealloc_mapOperands : (instr.mapOperands f).isDealloc = instr.isDealloc := by
  cases instr <;> rfl

@[simp] theorem alloc?_mapOperands : (instr.mapOperands f).alloc? = instr.alloc? := by
  cases instr <;> rfl

/-- The effects on an operand depend on how many operands there are ahead of it, not on which values they are. -/
theorem effectsOn_mapOperands (n : Nat) : (instr.mapOperands f).effectsOn n = instr.effectsOn n := by
  cases instr with
  | compute name inputs outputs => simp only [mapOperands, effectsOn, List.length_mapIdx]
  | _ => rfl

theorem mapOperands_mapOperands :
    (instr.mapOperands f).mapOperands g = instr.mapOperands fun n v => g n (f n v) := by
  cases instr <;> simp [mapOperands, Function.comp_def]

end

theorem mapOperands_congr {f g : Nat → ValueId → ValueId} {instr : Instr}
    (h : ∀ n v, instr.operands[n]? = some v → f n v = g n v) : instr.mapOperands f = instr.mapOperands g := by
  cases instr with
  | alloc | constant | barrier | yield | ret => rfl
  | dealloc | arith | fill | copy =>
    have h0 := h 0 _ rfl
    first
      | have h1 := h 1 _ rfl
        simp only [mapOperands, h0, h1]
      | simp only [mapOperands, h0]
  | loop l =>
    have h0 : f 0 l.lower = g 0 l.lower := h 0 _ rfl
    have h1 : f 1 l.upper = g 1 l.upper := h 1 _ rfl
    have h2 : f 2 l.step = g 2 l.step := h 2 _ rfl
    simp only [mapOperands, h0, h1, h2]
  | load result buffer indices =>
    have h0 : f 0 buffer = g 0 buffer := h 0 _ rfl
    have hi : indices.mapIdx (fun n => f (n + 1)) = indices.mapIdx fun n => g (n + 1) :=
      List.mapIdx_eq_mapIdx_iff.mpr fun n hn => h (n + 1) _ (List.getElem?_eq_getElem hn)
    simp only [mapOperands, h0, hi]
  | store value buffer indices =>
    have h0 : f 0 value = g 0 value := h 0 _ rfl
    have h1 : f 1 buffer = g 1 buffer := h 1 _ rfl
    have hi : indices.mapIdx (fun n => f (n + 2)) = indices.mapIdx fun n => g (n + 2) :=
      List.mapIdx_eq_mapIdx_iff.mpr fun n hn => h (n + 2) _ (List.getElem?_eq_getElem hn)
    simp only [mapOperands, h0, h1, hi]
  | compute name inputs outputs =>
    have hi : inputs.mapIdx f = inputs.mapIdx g :=
      List.mapIdx_eq_mapIdx_iff.mpr fun n hn => h n _ (by
        rw [operands, List.getElem?_append_left hn, List.getElem?_eq_getElem hn])
    have ho : outputs.mapIdx (fun n => f (n + inputs.length)) =
        outputs.mapIdx fun n => g (n + inputs.length) :=
      List.mapIdx_eq_mapIdx_iff.mpr fun n hn => h (n + inputs.length) _ (by
        rw [operands, List.getElem?_append_right (by omega), Nat.add_sub_cancel, List.getElem?_eq_getElem hn])
    simp only [mapOperands, hi, ho]
  | selectSlot result slots index =>
    have hs : slots.mapIdx f = slots.mapIdx g :=
      List.mapIdx_eq_mapIdx_iff.mpr fun n hn => h n _ (by
        rw [operands, List.getElem?_append_left hn, List.getElem?_eq_getElem hn])
    have hx : f slots.length index = g slots.length index := h _ _ (by simp [operands])
    simp only [mapOperands, hs, hx]

theorem mapOperands_id (instr : Instr) : (instr.mapOperands fun _ v => v) = instr := by
  have hid : ∀ vs : List ValueId, vs.mapIdx (fun _ v => v) = vs := fun vs =>
    List.ext_getElem? fun n => by simp
  cases instr <;> simp [mapOperands, hid]

theorem mapIdx_ite_eq_set (vs : List ValueId) (n : Nat) (value : ValueId) :
    vs.mapIdx (fun m v => if m = n then value else v) = vs.set n value := by
  apply List.ext_getElem? fun m => ?_
  rw [List.getElem?_mapIdx, List.getElem?_set]
  by_cases h : m = n
  · subst h
    rcases Nat.lt_or_ge m vs.length with hm | hm <;> simp [hm]
  · have h' : ¬n = m := fun e => h e.symm
    cases vs[m]? <;> simp [h, h']

theorem exchange?_eq (instr : Instr) (n : Nat) (value : ValueId) :
    instr.exchange? n value =
      instr.operands[n]?.map fun old => (old, instr.mapOperands fun m v => if m = n then value else v) := by
  have hid : ∀ vs : List ValueId, vs.mapIdx (fun _ v => v) = vs := fun vs =>
    List.ext_getElem? fun n => by simp
  cases instr with
  | alloc | constant | barrier | yield | ret => rfl
  | dealloc => rcases n with - | n <;> simp [exchange?, operands, mapOperands]
  | arith | fill | copy => rcases n with - | - | n <;> simp [exchange?, operands, mapOperands]
  | loop => rcases n with - | - | - | n <;> simp [exchange?, operands, mapOperands]
  | load result buffer indices =>
    rcases n with - | n
    · simp [exchange?, operands, mapOperands, hid]
    · simp [exchange?, operands, mapOperands, exchangeAt?, mapIdx_ite_eq_set, Function.comp_def]
  | store stored buffer indices =>
    rcases n with - | - | n
    · simp [exchange?, operands, mapOperands, hid]
    · simp [exchange?, operands, mapOperands, hid]
    · simp [exchange?, operands, mapOperands, exchangeAt?, mapIdx_ite_eq_set, Function.comp_def]
  | compute name inputs outputs =>
    by_cases h : n < inputs.length
    · have ho : outputs.mapIdx (fun m v => if m + inputs.length = n then value else v) = outputs := by
        rw [← hid outputs, List.mapIdx_mapIdx]
        exact List.mapIdx_eq_mapIdx_iff.mpr fun m _ => by simp [show m + inputs.length ≠ n by omega]
      simp [exchange?, h, operands, mapOperands, exchangeAt?, mapIdx_ite_eq_set, ho,
        List.getElem?_append_left h]
    · have hi : inputs.mapIdx (fun m v => if m = n then value else v) = inputs := by
        rw [mapIdx_ite_eq_set, List.set_eq_of_length_le (by omega)]
      have ho : outputs.mapIdx (fun m v => if m + inputs.length = n then value else v) =
          outputs.set (n - inputs.length) value := by
        rw [← mapIdx_ite_eq_set]
        refine List.mapIdx_eq_mapIdx_iff.mpr fun m _ => ?_
        by_cases hm : m + inputs.length = n
        · rw [if_pos hm, if_pos (by omega)]
        · rw [if_neg hm, if_neg (by omega)]
      simp [exchange?, h, operands, mapOperands, exchangeAt?, Function.comp_def, hi, ho,
        List.getElem?_append_right (Nat.le_of_not_lt h)]
  | selectSlot result slots index =>
    by_cases h : n = slots.length
    · subst h
      have hs : slots.mapIdx (fun m v => if m = slots.length then value else v) = slots := by
        rw [mapIdx_ite_eq_set, List.set_eq_of_length_le (Nat.le_refl _)]
      simp [exchange?, operands, mapOperands, hs]
    · have h' : ¬slots.length = n := fun e => h e.symm
      simp only [exchange?, h, if_false, operands, mapOperands, exchangeAt?, mapIdx_ite_eq_set, h']
      rcases Nat.lt_or_gt_of_ne h with hn | hn
      · simp [List.getElem?_append_left hn, Function.comp_def]
      · simp [List.getElem?_append_right (Nat.le_of_lt hn), List.getElem?_eq_none (Nat.le_of_lt hn),
          show n - slots.length ≠ 0 by omega]

end SlotRotation.Instr
