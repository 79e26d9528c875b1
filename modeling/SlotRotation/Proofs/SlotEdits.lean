import SlotRotation.Proofs.Edits.Sequence
import SlotRotation.Transform.Resize

/-! The edits that slots are made of. Each of them places its ops one behind the other, and none of them can be
refused at a point that exists. -/

namespace SlotRotation

def allocNodes (ty : BufferType) (slots : List Slot) : List Node :=
  slots.map fun slot => (slot.alloc, .alloc { result := slot.value, ty })

def releaseNodes (slots : List Slot) (ops : List OpId) : List Node :=
  List.zipWith (fun slot op => (op, .dealloc slot.value)) slots ops

def Forest.Constant (F : Forest) (v : ValueId) (c : Int64) : Prop := ∃ d, (d, .constant v c) ∈ F.nodes

/-- An arithmetic step, or nothing if `c` is known to change nothing. -/
def Combines (F : Forest) (c : Int64) (op : ArithOp) (value other : ValueId) (ns : List Node) (result : ValueId) :
    Prop :=
  (ns = [] ∧ result = value ∧ F.Constant other c) ∨ ∃ x, ns = [(x, .arith result op value other)]

inductive Rotates (F : Forest) (l : Loop) : Nat → List Node → ValueId → Prop where
  | single (x : OpId) (v : ValueId) : Rotates F l 1 [(x, .constant v 0)] v
  | many {n : Nat} {shift scale : List Node} {offset iteration modulus v : ValueId} {c x : OpId} (hn : n ≠ 1)
      (hshift : Combines F 0 .sub l.induction l.lower shift offset)
      (hscale : Combines F 1 .div offset l.step scale iteration) :
      Rotates F l n
        (shift ++ scale ++ [(c, .constant modulus (Int64.ofNat n)), (x, .arith v .rem iteration modulus)]) v

theorem InsertPoint.past_append (p : InsertPoint) (as bs : List OpId) : p.past (as ++ bs) = (p.past as).past bs := by
  rcases List.eq_nil_or_concat' bs with rfl | ⟨init, b, rfl⟩
  · simp [past]
  · simp [past, ← List.append_assoc]

namespace Kernel

variable {k k' : Kernel} {F : Forest} {p : InsertPoint}

theorem Stores.constant?_eq_some_iff (h : Stores k F) {v : ValueId} {c : Int64} :
    k.constant? v = some c ↔ F.Constant v c := by
  constructor
  · intro hc
    rw [constant?] at hc
    split at hc
    · rename_i w c' hw
      cases hc
      obtain ⟨d, hd, hi⟩ := Option.bind_eq_some_iff.mp hw
      obtain ⟨i, hn, hv⟩ := h.definition?_eq_some_iff.mp hd
      have hi' := h.instr?_of_mem hn
      rw [hi, Option.some.injEq] at hi'
      subst hi'
      obtain rfl : w = v := Option.some.inj hv
      exact ⟨d, hn⟩
    · cases hc
  · rintro ⟨d, hn⟩
    have hd : k.definition? v = some d := h.definition?_eq_some_iff.mpr ⟨_, hn, rfl⟩
    have hi : k.instr? d = some (.constant v c) := h.instr?_of_mem hn
    simp [constant?, hd, hi]

theorem Stores.allocateSlots (h : Stores k F) (hp : F.Anchors p) (ty : BufferType) (origin : Nat → SlotOrigin)
    (first count : Nat) :
    ∃ slots k', Edit.allocateSlots ty origin first count p k = .ok slots k' ∧ Places k k' F p (allocNodes ty slots) ∧
      slots.map Slot.ordinal = List.range' first count := by
  induction count generalizing first p k F with
  | zero => exact ⟨[], k, rfl, Places.nil h, rfl⟩
  | succ count ih =>
    obtain ⟨k₁, hrun₁, hplaces₁, -⟩ := h.insert_value hp (.buffer ty)
      (i := .alloc { result := ⟨k.values.size⟩, ty }) rfl rfl
    obtain ⟨slots, k₂, hrun₂, hplaces₂, hord⟩ := ih hplaces₁.stores (hplaces₁.anchors h.plain hp) (first + 1)
    refine ⟨{ ordinal := first, alloc := k.nextOp, value := ⟨k.values.size⟩, origin := origin first } :: slots, k₂,
      ?_, hplaces₁.append h hplaces₂, ?_⟩
    · rw [Edit.allocateSlots, bind_of_ok (show Edit.newValue (.buffer ty) k = .ok _ _ from rfl), bind_of_ok hrun₁]
      exact bind_of_ok hrun₂
    · rw [List.map_cons, hord]
      rfl

theorem Places.slot_new {k k' : Kernel} {F : Forest} {p : InsertPoint} {ty : BufferType} {slots : List Slot}
    (h : Places k k' F p (allocNodes ty slots)) {slot : Slot} (hslot : slot ∈ slots) :
    k.ops.size ≤ slot.alloc.index ∧ k.values.size ≤ slot.value.index := by
  have hn : (slot.alloc, .alloc { result := slot.value, ty }) ∈ allocNodes ty slots := List.mem_map_of_mem hslot
  exact ⟨(h.fresh _ hn).1, h.results _ hn _ rfl⟩

theorem Stores.releaseSlots (h : Stores k F) (hp : F.Anchors p) (slots : List Slot) :
    ∃ ops k', Edit.releaseSlots slots p k = .ok ops k' ∧ Places k k' F p (releaseNodes slots ops) ∧
      ops.length = slots.length := by
  induction slots generalizing p k F with
  | nil => exact ⟨[], k, rfl, Places.nil h, rfl⟩
  | cons slot slots ih =>
    obtain ⟨k₁, hrun₁, hplaces₁⟩ := h.insert_op hp (i := .dealloc slot.value) rfl rfl
    obtain ⟨ops, k₂, hrun₂, hplaces₂, hlen⟩ := ih hplaces₁.stores (hplaces₁.anchors h.plain hp)
    refine ⟨k.nextOp :: ops, k₂, ?_, hplaces₁.append h hplaces₂, ?_⟩
    · rw [Edit.releaseSlots, bind_of_ok hrun₁]
      exact bind_of_ok hrun₂
    · rw [List.length_cons, List.length_cons, hlen]

theorem Stores.selectAmong (h : Stores k F) (hp : F.Anchors p) (ty : BufferType) (slots : List Slot)
    (index : ValueId) :
    ∃ op result k', Edit.selectAmong ty slots index p k = .ok (op, result) k' ∧
      Places k k' F p [(op, .selectSlot result (slots.map Slot.value) index)] ∧
      k'.typeOf? result = some (.buffer ty) := by
  obtain ⟨k', hrun, hplaces, hty⟩ := h.insert_value hp (.buffer ty)
    (i := .selectSlot ⟨k.values.size⟩ (slots.map Slot.value) index) rfl rfl
  refine ⟨k.nextOp, ⟨k.values.size⟩, k', ?_, hplaces, hty⟩
  rw [Edit.selectAmong, bind_of_ok (show Edit.newValue (.buffer ty) k = .ok _ _ from rfl)]
  exact bind_of_ok hrun

theorem Stores.addConstant (h : Stores k F) (hp : F.Anchors p) (c : Int64) :
    ∃ v x k', Edit.addConstant c p k = .ok (v, x) k' ∧ Places k k' F p [(x, .constant v c)] := by
  obtain ⟨k', hrun, hplaces, -⟩ := h.insert_value hp .index (i := .constant ⟨k.values.size⟩ c) rfl rfl
  refine ⟨⟨k.values.size⟩, k.nextOp, k', ?_, hplaces⟩
  rw [Edit.addConstant, bind_of_ok (show Edit.newValue .index k = .ok _ _ from rfl)]
  exact bind_of_ok hrun

theorem Stores.addArith (h : Stores k F) (hp : F.Anchors p) (op : ArithOp) (lhs rhs : ValueId) :
    ∃ v x k', Edit.addArith op lhs rhs p k = .ok (v, x) k' ∧ Places k k' F p [(x, .arith v op lhs rhs)] := by
  obtain ⟨k', hrun, hplaces, -⟩ := h.insert_value hp .index (i := .arith ⟨k.values.size⟩ op lhs rhs) rfl rfl
  refine ⟨⟨k.values.size⟩, k.nextOp, k', ?_, hplaces⟩
  rw [Edit.addArith, bind_of_ok (show Edit.newValue .index k = .ok _ _ from rfl)]
  exact bind_of_ok hrun

theorem Stores.addArithUnless (h : Stores k F) (hp : F.Anchors p) (c : Int64) (op : ArithOp)
    (value other : ValueId) :
    ∃ v ns k', Edit.addArithUnless c op value other p k = .ok (v, ns.map Prod.fst) k' ∧ Places k k' F p ns ∧
      Combines F c op value other ns v := by
  have hget : (get : Edit Kernel) k = .ok k k := rfl
  rw [Edit.addArithUnless, bind_of_ok hget]
  split
  · rename_i hc
    exact ⟨value, [], k, rfl, Places.nil h, Or.inl ⟨rfl, rfl, h.constant?_eq_some_iff.mp hc⟩⟩
  · obtain ⟨v, x, k', hrun, hplaces⟩ := h.addArith hp op value other
    exact ⟨v, _, k', bind_of_ok hrun, hplaces, Or.inr ⟨x, rfl⟩⟩

theorem Stores.addRotation (h : Stores k F) (hp : F.Anchors p) (l : Loop) {n : Nat} (hfits : n ≤ Int64.maxValue.toInt) :
    ∃ rotation ns k', Edit.addRotation l n p k = .ok rotation k' ∧ Places k k' F p ns ∧
      Rotates F l n ns rotation.value ∧ rotation.ops = ns.map Prod.fst ∧ rotation.factor = n := by
  rw [Edit.addRotation, if_neg (Int.not_lt.mpr hfits)]
  split
  · rename_i hn
    subst hn
    obtain ⟨v, x, k', hrun, hplaces⟩ := h.addConstant hp 0
    exact ⟨_, _, k', bind_of_ok hrun, hplaces, .single x v, rfl, rfl⟩
  · rename_i hn
    obtain ⟨offset, shift, k₁, hrun₁, hplaces₁, hshift⟩ := h.addArithUnless hp 0 .sub l.induction l.lower
    obtain ⟨iteration, scale, k₂, hrun₂, hplaces₂, hscale⟩ := hplaces₁.stores.addArithUnless
      (hplaces₁.anchors h.plain hp) 1 .div offset l.step
    have hplaces₁₂ := hplaces₁.append h hplaces₂
    obtain ⟨modulus, c, k₃, hrun₃, hplaces₃⟩ := hplaces₁₂.stores.addConstant (hplaces₁₂.anchors h.plain hp)
      (Int64.ofNat n)
    have hplaces₁₃ := hplaces₁₂.append h hplaces₃
    obtain ⟨v, x, k₄, hrun₄, hplaces₄⟩ :=
      hplaces₁₃.stores.addArith (hplaces₁₃.anchors h.plain hp) .rem iteration modulus
    have hconstant : ∀ {v c}, (F.rewrite (.placing p shift)).Constant v c → F.Constant v c := by
      rintro v c ⟨d, hd⟩
      rcases Forest.mem_placing_cases h.plain hd with hd | hmem
      · exact ⟨d, hd⟩
      · rcases hshift with ⟨rfl, -⟩ | ⟨x, rfl⟩
        · simp at hmem
        · simp at hmem
    have hscale' : Combines F 1 .div offset l.step scale iteration :=
      hscale.imp_left fun ⟨hns, hv, hc⟩ => ⟨hns, hv, hconstant hc⟩
    refine ⟨{ value := v, ops := shift.map Prod.fst ++ scale.map Prod.fst ++ [c, x], factor := n },
      shift ++ scale ++ [(c, .constant modulus (Int64.ofNat n)), (x, .arith v .rem iteration modulus)], k₄, ?_, ?_,
      .many hn hshift hscale', ?_, rfl⟩
    · rw [bind_of_ok hrun₁]
      refine (bind_of_ok hrun₂).trans ?_
      have hrun₃' : Edit.addConstant (Int64.ofNat n) (p.past (shift.map Prod.fst ++ scale.map Prod.fst)) k₂ =
          .ok (modulus, c) k₃ := by
        rwa [List.map_append] at hrun₃
      refine (bind_of_ok hrun₃').trans ?_
      have hpast : p.past ((shift ++ scale ++ [(c, Instr.constant modulus (Int64.ofNat n))]).map Prod.fst) =
          .after c := by
        simp [InsertPoint.past]
      rw [hpast] at hrun₄
      exact bind_of_ok hrun₄
    · simpa using hplaces₁₃.append h hplaces₄
    · simp

end Kernel
end SlotRotation
