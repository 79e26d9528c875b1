/-! The vocabulary of kernels. Ops, values and regions are numbered from zero in order of creation. Sizes of buffers
are counted in 64 bits and have no answer once a product leaves that range. -/

namespace SlotRotation

structure OpId where
  index : Nat
deriving DecidableEq

structure ValueId where
  index : Nat
deriving DecidableEq

structure RegionId where
  index : Nat
deriving DecidableEq

instance : ToString OpId := ⟨fun op => s!"op{op.index}"⟩
instance : ToString ValueId := ⟨fun value => s!"%{value.index}"⟩
instance : ToString RegionId := ⟨fun region => s!"r{region.index}"⟩

instance : Ord OpId := ⟨compareOn OpId.index⟩
instance : Ord ValueId := ⟨compareOn ValueId.index⟩

instance : Std.TransOrd OpId := inferInstanceAs (Std.TransCmp (compareOn OpId.index))
instance : Std.TransOrd ValueId := inferInstanceAs (Std.TransCmp (compareOn ValueId.index))

instance : Std.LawfulEqOrd OpId where
  eq_of_compare {a b} h := by
    cases a; cases b
    exact congrArg OpId.mk (Nat.compare_eq_eq.mp h)

instance : Std.LawfulEqOrd ValueId where
  eq_of_compare {a b} h := by
    cases a; cases b
    exact congrArg ValueId.mk (Nat.compare_eq_eq.mp h)

inductive Location where
  | unknown
  | at (file : String) (line column : UInt32)
deriving DecidableEq

def Location.text : Location → String
  | unknown => "loc(unknown)"
  | .at file line column => s!"loc({file}:{line}:{column})"

instance : ToString Location := ⟨Location.text⟩

inductive Element where
  | i1 | i8 | i16 | i32 | i64
  | f16 | bf16 | f32 | f64
  | index
  | custom (name : String)
deriving DecidableEq

namespace Element

def text : Element → String
  | i1 => "i1" | i8 => "i8" | i16 => "i16" | i32 => "i32" | i64 => "i64"
  | f16 => "f16" | bf16 => "bf16" | f32 => "f32" | f64 => "f64"
  | index => "index"
  | custom name => s!"!{name}"

instance : ToString Element := ⟨text⟩

/-- Whole bytes of one element; single bits are packed and custom elements are not known. -/
def width? : Element → Option UInt64
  | i1 | custom _ => none
  | i8 => some 1
  | i16 | f16 | bf16 => some 2
  | i32 | f32 => some 4
  | i64 | f64 | index => some 8

/-- Only elements of a whole number of bytes can be laid out again in another slot. -/
def replicable (element : Element) : Bool := element.width?.isSome

end Element

inductive Space where
  | global | workgroup | perThread
deriving DecidableEq

namespace Space

def text : Space → String
  | global => "global" | workgroup => "workgroup" | perThread => "private"

instance : ToString Space := ⟨text⟩

def ofText? : String → Option Space
  | "global" => some global
  | "workgroup" => some workgroup
  | "private" => some perThread
  | _ => none

def shared : Space → Bool
  | perThread => false
  | _ => true

end Space

def mulWithin (a b : UInt64) : Option UInt64 :=
  let product := a.toNat * b.toNat
  if product < UInt64.size then some (UInt64.ofNat product) else none

structure BufferType where
  element : Element
  shape : List UInt64
  space : Space := .workgroup
deriving DecidableEq

namespace BufferType

def text (ty : BufferType) : String :=
  let dims := ty.shape.map fun dim => s!"{dim}x"
  s!"buffer<{String.join dims}{ty.element}, {ty.space}>"

instance : ToString BufferType := ⟨text⟩

/-- The dimensions are multiplied from the first to the last, and each partial product has to fit. -/
def count? (ty : BufferType) : Option UInt64 := ty.shape.foldlM mulWithin 1

def bytes? (ty : BufferType) : Option UInt64 := do
  let width ← ty.element.width?
  let count ← ty.count?
  mulWithin width count

end BufferType

inductive ValueType where
  | index
  | int (bits : UInt32)
  | float (bits : UInt32)
  | buffer (ty : BufferType)
deriving DecidableEq

namespace ValueType

def text : ValueType → String
  | index => "index"
  | int bits => s!"i{bits}"
  | float bits => s!"f{bits}"
  | buffer ty => ty.text

instance : ToString ValueType := ⟨text⟩

def buffer? : ValueType → Option BufferType
  | buffer ty => some ty
  | _ => none

end ValueType

def BufferType.scalar (ty : BufferType) : ValueType :=
  match ty.element with
  | .f16 | .bf16 => .float 16
  | .f32 => .float 32
  | .f64 => .float 64
  | .index => .index
  | .i1 => .int 1
  | .i8 => .int 8
  | .i16 => .int 16
  | .i32 => .int 32
  | .i64 | .custom _ => .int 64

end SlotRotation
