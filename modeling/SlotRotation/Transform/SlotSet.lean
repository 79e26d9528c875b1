import SlotRotation.Kernel.Nesting

/-! A buffer spread over slots: the slots, the index that rotates over them, the op that selects one per iteration,
and the accesses and releases that go through it. -/

namespace SlotRotation

inductive SlotOrigin where
  | fresh
  | reused (ordinal : Nat)
  | inherited (ordinal : Nat)
deriving DecidableEq

def SlotOrigin.text : SlotOrigin → String
  | fresh => "fresh"
  | reused ordinal => s!"reused {ordinal}"
  | inherited ordinal => s!"inherited {ordinal}"

structure Slot where
  ordinal : Nat
  alloc : OpId
  value : ValueId
  origin : SlotOrigin
deriving DecidableEq

structure Rotation where
  value : ValueId
  ops : List OpId
  factor : Nat
deriving DecidableEq

structure Binding where
  use : Use
  selector : OpId
deriving DecidableEq

/-- A barrier at the top of a loop body, put there for the slots or found there. -/
structure Guard where
  op : OpId
  inserted : Bool
deriving DecidableEq

structure SlotSet where
  ty : BufferType
  slots : List Slot
  loop : OpId
  rotation : Rotation
  selector : OpId
  selected : ValueId
  bindings : List Binding
  /-- For each release of the buffer, the releases of its slots. -/
  releases : List (List OpId)
  guard : Option Guard
deriving DecidableEq

namespace SlotSet

def factor (set : SlotSet) : Nat := set.slots.length

def isEmpty (set : SlotSet) : Bool := set.slots.isEmpty

def slotValues (set : SlotSet) : List ValueId := set.slots.map Slot.value

def useCount (set : SlotSet) : Nat := set.bindings.length + set.releases.length

def bytes? (set : SlotSet) : Option UInt64 := do
  let size ← set.ty.bytes?
  mulWithin size (UInt64.ofNat set.factor)

end SlotSet
end SlotRotation
