import Mathlib.Algebra.BigOperators.Group.List.Basic
import Mathlib.Algebra.BigOperators.Ring.List
import Mathlib.Algebra.Ring.Nat
import Mathlib.Data.List.TakeWhile
import SlotRotation.Proofs.Rotating
import SlotRotation.Proofs.Stages

/-! Sizes of buffers and of slot sets. A size is a product of words, taken from the left and given up once it has
more than 64 bits. Multiplying by anything but zero does not bring a product back, so what is given up is too large
in the end as well, unless a dimension of zero follows. -/

namespace SlotRotation

def word64? (n : Nat) : Option UInt64 := if n < UInt64.size then some (UInt64.ofNat n) else none

theorem mulWithin_eq (a b : UInt64) : mulWithin a b = word64? (a.toNat * b.toNat) := rfl

theorem word64?_toNat (a : UInt64) : word64? a.toNat = some a := by
  rw [word64?, if_pos a.toNat_lt, UInt64.ofNat_toNat]

theorem word64?_of_le {n : Nat} (h : UInt64.size ≤ n) : word64? n = none := if_neg (Nat.not_lt.mpr h)

theorem word64?_bind_mul (n : Nat) {m : Nat} (hm : 0 < m) :
    (word64? n).bind (fun a => word64? (a.toNat * m)) = word64? (n * m) := by
  rcases Nat.lt_or_ge n UInt64.size with hn | hn
  · rw [word64?, if_pos hn, Option.bind_some, UInt64.toNat_ofNat_of_lt' hn]
  · have hmul : UInt64.size ≤ n * m := hn.trans (Nat.le_mul_of_pos_right n hm)
    rw [word64?_of_le hn, word64?_of_le hmul, Option.bind_none]

def volume (shape : List UInt64) : Nat := (shape.map UInt64.toNat).prod

def leading (shape : List UInt64) : List UInt64 := shape.takeWhile (· ≠ 0)

/-- There is a dimension of zero, but the product of those ahead of it has too many bits already. -/
def Overrun (shape : List UInt64) : Prop := 0 ∈ shape ∧ UInt64.size ≤ volume (leading shape)

instance (shape : List UInt64) : Decidable (Overrun shape) := inferInstanceAs (Decidable (_ ∧ _))

variable {shape shape' : List UInt64}

@[simp] theorem volume_nil : volume [] = 1 := rfl

@[simp] theorem volume_cons (dim : UInt64) (shape : List UInt64) :
    volume (dim :: shape) = dim.toNat * volume shape :=
  List.prod_cons

theorem volume_perm (h : shape.Perm shape') : volume shape = volume shape' := (h.map UInt64.toNat).prod_eq

theorem volume_eq_zero_iff : volume shape = 0 ↔ 0 ∈ shape := by
  rw [volume, List.prod_eq_zero_iff, List.mem_map]
  refine ⟨fun ⟨dim, hdim, hzero⟩ => ?_, fun h => ⟨0, h, rfl⟩⟩
  rwa [show dim = 0 from UInt64.toNat_inj.mp hzero] at hdim

theorem leading_of_notMem (h : 0 ∉ shape) : leading shape = shape := by
  rw [leading, List.takeWhile_eq_self_iff]
  intro dim hdim
  exact decide_eq_true fun heq => h (heq ▸ hdim)

theorem volume_leading_pos (shape : List UInt64) : 0 < volume (leading shape) := by
  rw [Nat.pos_iff_ne_zero, ne_eq, volume_eq_zero_iff]
  intro hmem
  simpa using List.mem_takeWhile_imp hmem

/-- A running product is given up exactly if it has too many bits at the first zero, or at the end without one. -/
theorem foldlM_mulWithin (shape : List UInt64) (start : UInt64) : shape.foldlM mulWithin start =
    if start.toNat * volume (leading shape) < UInt64.size then word64? (start.toNat * volume shape) else none := by
  induction shape generalizing start with
  | nil =>
    rw [leading, List.takeWhile_nil, volume_nil, Nat.mul_one, if_pos start.toNat_lt, word64?_toNat]
    rfl
  | cons dim shape ih =>
    rw [List.foldlM_cons, mulWithin_eq, volume_cons, leading, List.takeWhile_cons, ← leading]
    by_cases hdim : dim = 0
    · -- from here on the product is zero
      subst hdim
      have hzero : word64? 0 = some 0 := word64?_toNat 0
      simp [hzero, ih, start.toNat_lt]
    · rw [if_pos (decide_eq_true hdim), volume_cons, ← Nat.mul_assoc, ← Nat.mul_assoc]
      rcases Nat.lt_or_ge (start.toNat * dim.toNat) UInt64.size with hlt | hge
      · rw [word64?, if_pos hlt]
        show shape.foldlM mulWithin _ = _
        rw [ih, UInt64.toNat_ofNat_of_lt' hlt]
      · have hlarge : UInt64.size ≤ start.toNat * dim.toNat * volume (leading shape) :=
          hge.trans (Nat.le_mul_of_pos_right _ (volume_leading_pos shape))
        rw [word64?_of_le hge, if_neg (Nat.not_lt.mpr hlarge)]
        rfl

theorem Element.width?_pos {element : Element} {width : UInt64} (h : element.width? = some width) :
    0 < width.toNat := by
  cases element <;> cases h <;> decide

namespace BufferType

variable {ty : BufferType}

theorem count?_eq (ty : BufferType) : ty.count? =
    if volume (leading ty.shape) < UInt64.size then word64? (volume ty.shape) else none := by
  rw [count?, foldlM_mulWithin]
  simp only [UInt64.toNat_one, Nat.one_mul]

theorem count?_of_overrun (h : Overrun ty.shape) : ty.count? = none := by
  rw [count?_eq, if_neg (Nat.not_lt.mpr h.2)]

theorem count?_exact (h : ¬Overrun ty.shape) : ty.count? = word64? (volume ty.shape) := by
  rw [count?_eq]
  split
  · rfl
  · rename_i hge
    have hzero : 0 ∉ ty.shape := fun hmem => h ⟨hmem, Nat.not_lt.mp hge⟩
    rw [leading_of_notMem hzero] at hge
    rw [word64?_of_le (Nat.not_lt.mp hge)]

theorem bytes?_exact (h : ¬Overrun ty.shape) :
    ty.bytes? = ty.element.width?.bind fun width => word64? (width.toNat * volume ty.shape) := by
  show (ty.element.width?.bind fun width => ty.count?.bind fun count => mulWithin width count) = _
  refine Option.bind_congr fun width hwidth => ?_
  rw [count?_exact h, Nat.mul_comm, ← word64?_bind_mul _ (Element.width?_pos hwidth)]
  refine Option.bind_congr fun count _ => ?_
  rw [mulWithin_eq, Nat.mul_comm]

theorem bytes?_of_overrun (h : Overrun ty.shape) : ty.bytes? = none := by
  show (ty.element.width?.bind fun width => ty.count?.bind fun count => mulWithin width count) = none
  rw [count?_of_overrun h]
  exact Option.bind_fun_none ..

end BufferType

namespace SlotSet

variable {set : SlotSet}

theorem bytes?_eq (set : SlotSet) :
    set.bytes? = set.ty.bytes?.bind fun size => mulWithin size (UInt64.ofNat set.factor) := rfl

theorem bytes?_exact (h : ¬Overrun set.ty.shape) (hpos : 0 < set.factor) (hlt : set.factor < UInt64.size) :
    set.bytes? = set.ty.element.width?.bind fun width =>
      word64? (set.factor * (width.toNat * volume set.ty.shape)) := by
  rw [bytes?_eq, BufferType.bytes?_exact h, Option.bind_assoc]
  refine Option.bind_congr fun width _ => ?_
  rw [Nat.mul_comm set.factor, ← word64?_bind_mul _ hpos]
  refine Option.bind_congr fun size _ => ?_
  rw [mulWithin_eq, UInt64.toNat_ofNat_of_lt' hlt]

end SlotSet

namespace Transform

variable {policy : Policy} {site : Site} {factor : Int64} {set set' : SlotSet} {s s' : State}

theorem length_allocateSlots {ty : BufferType} {origin : Nat → SlotOrigin} {first count : Nat} {point : InsertPoint}
    {slots : List Slot} {k k' : Kernel} (h : Edit.allocateSlots ty origin first count point k = .ok slots k') :
    slots.length = count := by
  induction count generalizing first point slots k with
  | zero =>
    cases h
    rfl
  | succ count ih =>
    obtain ⟨value, k₁, -, h⟩ := bind_eq_ok h
    obtain ⟨alloc, k₂, -, h⟩ := bind_eq_ok h
    obtain ⟨rest, k₃, hrest, h⟩ := bind_eq_ok h
    cases h
    rw [List.length_cons, ih hrest]

theorem factor_of_expand (h : expand policy site factor s = .ok set s') : slotsAsked factor = .ok set.factor := by
  obtain ⟨e, top, s₁, s₂, s₃, s₄, s₅, s₆, he, hslots, -⟩ := expand_stages h
  obtain ⟨slots, hasked, he⟩ := except_bind_eq_ok he
  obtain ⟨_, -, he⟩ := except_bind_eq_ok he
  obtain ⟨_, -, he⟩ := except_bind_eq_ok he
  obtain ⟨_, -, he⟩ := except_bind_eq_ok he
  obtain ⟨_, -, he⟩ := except_bind_eq_ok he
  cases he
  rw [hasked, SlotSet.factor, length_allocateSlots (edit_eq_ok hslots).1]

theorem factor_of_resize (h : resize policy set factor s = .ok set' s') : slotsAsked factor = .ok set'.factor := by
  obtain ⟨target, last, top, resized, s₁, s₂, s₃, hasked, -, -, -, -, -, hresized, -, heq⟩ := resize_stages h
  have hslots : set'.slots = resized.slots := by rw [heq]
  rw [hasked, SlotSet.factor, hslots]
  congr 1
  rcases hresized with ⟨-, hreallocate⟩ | ⟨strategy, -, -, hregroup⟩
  · obtain ⟨s₁, s₂, s₃, s₄, s₅, s₆, hadded, -⟩ := reallocate_stages hreallocate
    exact (length_allocateSlots (edit_eq_ok hadded).1).symm
  · obtain ⟨kept, added, s₁, s₂, s₃, s₄, hadded, -, -, -, hkept, hregrouped, -⟩ := regroup_stages hregroup
    rw [hregrouped, List.length_append, length_allocateSlots (edit_eq_ok hadded).1, hkept, List.length_map,
      List.length_take, SlotSet.factor]
    omega

end Transform

/-- Sizes are exact, and there is none only if it has more than 64 bits, unless the dimensions ahead of a zero have
a product of more than 64 bits. Then the size is zero, but none is given. So the order of the dimensions does not
matter among the orders that have no such zero. The slots of a set are as many as an expansion or a resizing was
asked for, which is a number of 64 bits. -/
theorem BufferType.sizes_exact (ty : BufferType) :
    (¬Overrun ty.shape →
      ty.count? = word64? (volume ty.shape) ∧
      ty.bytes? = ty.element.width?.bind (fun width => word64? (width.toNat * volume ty.shape)) ∧
      ∀ set : SlotSet, set.ty = ty → 0 < set.factor → set.factor < UInt64.size →
        set.bytes? = ty.element.width?.bind fun width => word64? (set.factor * (width.toNat * volume ty.shape))) ∧
    (Overrun ty.shape → volume ty.shape = 0 ∧ ty.count? = none ∧ ty.bytes? = none ∧
      ∀ set : SlotSet, set.ty = ty → set.bytes? = none) ∧
    (∀ ty' : BufferType, ty.element = ty'.element → ty.shape.Perm ty'.shape → ¬Overrun ty.shape →
      ¬Overrun ty'.shape → ty.count? = ty'.count? ∧ ty.bytes? = ty'.bytes? ∧
        ∀ set : SlotSet, { set with ty }.bytes? = { set with ty := ty' }.bytes?) ∧
    ∀ (policy : Policy) (factor : Int64) (s s' : Transform.State) (set : SlotSet),
      ((∃ site, Transform.expand policy site factor s = .ok set s') ∨
        ∃ old, Transform.resize policy old factor s = .ok set s') → 0 < set.factor ∧ set.factor < UInt64.size := by
  refine ⟨fun h => ⟨count?_exact h, bytes?_exact h, ?_⟩, fun h => ?_, ?_, ?_⟩
  · rintro set rfl hpos hlt
    exact set.bytes?_exact h hpos hlt
  · refine ⟨volume_eq_zero_iff.mpr h.1, count?_of_overrun h, bytes?_of_overrun h, ?_⟩
    rintro set rfl
    rw [set.bytes?_eq, bytes?_of_overrun h, Option.bind_none]
  · intro ty' helement hperm h h'
    have hcount : ty.count? = ty'.count? := by rw [count?_exact h, count?_exact h', volume_perm hperm]
    have hbytes : ty.bytes? = ty'.bytes? := by rw [bytes?_exact h, bytes?_exact h', helement, volume_perm hperm]
    exact ⟨hcount, hbytes, fun set => congrArg (Option.bind · fun size => mulWithin size _) hbytes⟩
  · intro policy factor s s' set hset
    have hasked : slotsAsked factor = .ok set.factor := by
      rcases hset with ⟨site, hset⟩ | ⟨old, hset⟩
      · exact Transform.factor_of_expand hset
      · exact Transform.factor_of_resize hset
    exact ⟨slotsAsked_pos hasked, (slotsAsked_lt hasked).trans (by decide)⟩

/-- Two slots of 2 ^ 61 elements: the elements and the bytes of one slot can be counted, the bytes of both cannot. -/
theorem BufferType.sizes_exact_brink :
    let ty : BufferType := { element := .f32, shape := [2147483648, 1073741824] }
    let slot : Slot := { ordinal := 0, alloc := ⟨0⟩, value := ⟨0⟩, origin := .fresh }
    let set : SlotSet :=
      { ty, slots := [slot, { slot with ordinal := 1 }], loop := ⟨0⟩, rotation := ⟨⟨0⟩, [], 2⟩, selector := ⟨0⟩
        selected := ⟨0⟩, bindings := [], releases := [], guard := none }
    ¬Overrun ty.shape ∧ 0 < set.factor ∧ set.factor < UInt64.size ∧ ty.count? = some 2305843009213693952 ∧
      ty.bytes? = some 9223372036854775808 ∧ set.bytes? = none := by
  intro ty slot set
  have hshape : ¬Overrun ty.shape := by decide
  obtain ⟨hcount, hbytes, hset⟩ := (sizes_exact ty).1 hshape
  refine ⟨hshape, by decide, by decide, hcount.trans (by decide), hbytes.trans (by decide), ?_⟩
  exact (hset set rfl (by decide) (by decide)).trans (by decide)

/-- With the zero in front the elements are counted, with the zero at the end they are not. -/
theorem BufferType.count?_lateZero :
    let late : BufferType := { element := .f32, shape := [4294967296, 4294967296, 0] }
    let early : BufferType := { element := .f32, shape := [0, 4294967296, 4294967296] }
    late.shape.Perm early.shape ∧ volume late.shape < UInt64.size ∧ late.count? = none ∧ late.bytes? = none ∧
      early.count? = some 0 ∧ early.bytes? = some 0 := by
  decide

end SlotRotation
