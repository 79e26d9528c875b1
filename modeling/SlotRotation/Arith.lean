/-! Index arithmetic on 64-bit words. A result that does not fit has no value; division is Euclidean. -/

namespace SlotRotation

inductive ArithOp where
  | add | sub | mul | div | rem
deriving DecidableEq

def wordOf? (n : Int) : Option Int64 :=
  if Int64.minValue.toInt ≤ n ∧ n ≤ Int64.maxValue.toInt then some (Int64.ofInt n) else none

namespace ArithOp

def text : ArithOp → String
  | add => "add" | sub => "sub" | mul => "mul" | div => "div" | rem => "rem"

instance : ToString ArithOp := ⟨text⟩

def ofText? : String → Option ArithOp
  | "add" => some add
  | "sub" => some sub
  | "mul" => some mul
  | "div" => some div
  | "rem" => some rem
  | _ => none

/-- The value of an operation on two words. A quotient and its remainder exist together: a divisor of zero and a
quotient out of range leave both without a value. -/
def fold (op : ArithOp) (lhs rhs : Int64) : Option Int64 :=
  match op with
  | add => wordOf? (lhs.toInt + rhs.toInt)
  | sub => wordOf? (lhs.toInt - rhs.toInt)
  | mul => wordOf? (lhs.toInt * rhs.toInt)
  | div => if rhs = 0 then none else wordOf? (lhs.toInt / rhs.toInt)
  | rem =>
    if rhs = 0 then none
    else (wordOf? (lhs.toInt / rhs.toInt)).map fun _ => Int64.ofInt (lhs.toInt % rhs.toInt)

end ArithOp
end SlotRotation
