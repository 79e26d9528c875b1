import SlotRotation.Transform.Rotation

/-! Guard barriers. A slot may be written again while another thread still reads it only if the storage is shared and
as many iterations are in flight as there are slots; a barrier at the top of the loop body prevents that. -/

namespace SlotRotation

namespace Policy

def depthOf (policy : Policy) (k : Kernel) (loop : OpId) : Nat :=
  (((k.loop? loop).bind Loop.depth).getD policy.defaultDepth).toNat

def needsGuard (policy : Policy) (k : Kernel) (ty : BufferType) (loop : OpId) (factor : Nat) : Bool :=
  policy.guards && ty.space.shared && factor ≤ policy.depthOf k loop

end Policy

namespace Kernel

variable (k : Kernel)

def selection? (id : OpId) : Option (BufferType × Nat) :=
  match k.instr? id with
  | some (.selectSlot result slots _) =>
    ((k.typeOf? result).bind ValueType.buffer?).map fun ty => (ty, slots.length)
  | _ => none

def otherNeedsGuard (policy : Policy) (loop selector : OpId) : Bool :=
  match k.loop? loop with
  | none => false
  | some l =>
    (((k.regionOps l.body).filter (· ≠ selector)).filterMap k.selection?).any fun (ty, factor) =>
      policy.needsGuard k ty loop factor

end Kernel

namespace Transform

/-- Makes the body of a loop start with a barrier; one that stands there already is taken. -/
def leadWithBarrier (loop : OpId) : Transform Guard := do
  let l ← query (·.getLoop loop)
  match (← currentKernel).leadingBarrier? l.body with
  | some op =>
    note .guardAdopted op
    return { op, inserted := false }
  | none =>
    let op ← edit (Edit.insert .barrier (.first l.body))
    note .guardInserted op
    return { op, inserted := true }

def guardFor (policy : Policy) (ty : BufferType) (loop : OpId) (factor : Nat) : Transform (Option Guard) := do
  if policy.needsGuard (← currentKernel) ty loop factor then
    let guard ← leadWithBarrier loop
    return some guard
  else
    return none

/-- The guard of a set whose slot count becomes `factor`. A barrier that was put there for the set goes when neither
the set nor another selector of the loop needs it; one that was found there stays. -/
def renewGuard (policy : Policy) (set : SlotSet) (factor : Nat) : Transform (Option Guard) := do
  let k ← currentKernel
  match set.guard, policy.needsGuard k set.ty set.loop factor with
  | some guard, true => return some guard
  | none, true =>
    let guard ← leadWithBarrier set.loop
    return some guard
  | some guard, false =>
    if guard.inserted && !k.otherNeedsGuard policy set.loop set.selector then
      edit (Edit.erase guard.op)
    return none
  | none, false => return none

end Transform
end SlotRotation
