import SlotRotation.Types

/-! What happens to a kernel, one event at a time. -/

namespace SlotRotation

inductive EventKind where
  | directiveConsumed
  | slotsCreated
  | useRebound
  | rotationDerived
  | guardInserted
  | guardAdopted
  | slotsRegrouped
  | slotsReallocated
  | slotDiscarded
  | passStarted
  | passCompleted
  | kernelStarted
  | kernelCompleted
  | info
  | warning
  | error
deriving DecidableEq

namespace EventKind

def all : List EventKind :=
  [directiveConsumed, slotsCreated, useRebound, rotationDerived, guardInserted, guardAdopted, slotsRegrouped,
    slotsReallocated, slotDiscarded, passStarted, passCompleted, kernelStarted,
    kernelCompleted, info, warning, error]

def description : EventKind → String
  | directiveConsumed => "directives consumed"
  | slotsCreated => "slots created"
  | useRebound => "uses rebound"
  | rotationDerived => "rotations derived"
  | guardInserted => "guards inserted"
  | guardAdopted => "guards adopted"
  | slotsRegrouped => "sets regrouped"
  | slotsReallocated => "sets reallocated"
  | slotDiscarded => "slots discarded"
  | passStarted => "pass started"
  | passCompleted => "pass completed"
  | kernelStarted => "function processing started"
  | kernelCompleted => "function processing completed"
  | info => "info"
  | warning => "warning"
  | error => "error"

def isTransformation : EventKind → Bool
  | directiveConsumed | slotsCreated | useRebound | rotationDerived | guardInserted | guardAdopted
  | slotsRegrouped | slotsReallocated | slotDiscarded => true
  | _ => false

end EventKind

/-- An event, the kernel, op and pass it belongs to, and a text that is the description of its kind unless another
one is given. -/
structure Event where
  kind : EventKind
  kernel : Option String := none
  op : Option OpId := none
  message : String := kind.description
  pass : Option String := none
deriving DecidableEq

def Event.text (event : Event) : String :=
  match event.kernel with
  | some kernel => s!"[{event.kind.description}] @{kernel}: {event.message}"
  | none => s!"[{event.kind.description}] {event.message}"

end SlotRotation
