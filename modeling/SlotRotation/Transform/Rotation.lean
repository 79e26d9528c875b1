import SlotRotation.Transform.Basic
import SlotRotation.Transform.SlotSet

/-! The rotation index of a loop with `n` slots is the number of the iteration modulo `n`, that is `((iv - lower) /
step) mod n`. A step that changes nothing is left out: no subtraction of a constant 0, no division by a constant 1,
and no arithmetic at all for a single slot. -/

namespace SlotRotation

namespace Kernel

variable (k : Kernel)

def getLoop (id : OpId) : Except Error Loop :=
  match k.loop? id with
  | some l => .ok l
  | none => .error (.malformed (.deadLoop id))

def leadingBarrier? (region : RegionId) : Option OpId :=
  (k.regionOps region).head?.filter fun op => (k.instr? op).any Instr.isBarrier

/-- Where new ops go at the top of a loop body: behind a leading barrier, else at the start. -/
def bodyTop (id : OpId) : Except Error InsertPoint := do
  let l ← k.getLoop id
  return ((k.leadingBarrier? l.body).map .after).getD (.first l.body)

end Kernel

namespace Edit

def addConstant (value : Int64) (point : InsertPoint) : Edit (ValueId × OpId) := do
  let result ← newValue .index
  let op ← insert (.constant result value) point
  return (result, op)

def addArith (op : ArithOp) (lhs rhs : ValueId) (point : InsertPoint) : Edit (ValueId × OpId) := do
  let result ← newValue .index
  let op ← insert (.arith result op lhs rhs) point
  return (result, op)

/-- Combines `value` with `other`, unless `other` is the constant that changes nothing. Answers the value to go on
with and the ops it took. -/
def addArithUnless (neutral : Int64) (op : ArithOp) (value other : ValueId) (point : InsertPoint) :
    Edit (ValueId × List OpId) := do
  if (← get).constant? other = some neutral then
    return (value, [])
  else
    let (result, op) ← addArith op value other point
    return (result, [op])

/-- Computes the iteration number of a loop modulo the slot count, which has to fit into a word. -/
def addRotation (l : Loop) (factor : Nat) (point : InsertPoint) : Edit Rotation := do
  if Int64.maxValue.toInt < factor then
    throw (.malformed (.tooManySlots factor))
  else if factor = 1 then
    let (value, op) ← addConstant 0 point
    return { value, ops := [op], factor }
  else
    let (offset, shift) ← addArithUnless 0 .sub l.induction l.lower point
    let (iteration, scale) ← addArithUnless 1 .div offset l.step (point.past shift)
    let (modulus, constant) ← addConstant (Int64.ofNat factor) (point.past (shift ++ scale))
    let (value, remainder) ← addArith .rem iteration modulus (.after constant)
    return { value, ops := shift ++ scale ++ [constant, remainder], factor }

end Edit

namespace Transform

def deriveRotation (loop : OpId) (factor : Nat) (point : InsertPoint) : Transform Rotation := do
  let l ← query (·.getLoop loop)
  let rotation ← edit (Edit.addRotation l factor point)
  record .rotationDerived loop s!"{rotation.value} = iteration mod {factor}"
  return rotation

end Transform
end SlotRotation
