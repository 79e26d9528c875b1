import SlotRotation.Event.Basic

/-! The events of a run in the order in which they happened, and what can be asked about them. -/

namespace SlotRotation

structure Log where
  entries : Array Event := #[]
deriving DecidableEq

def distinctCount : List String → Nat
  | [] => 0
  | name :: names => if name ∈ names then distinctCount names else distinctCount names + 1

namespace Log

def push (log : Log) (event : Event) : Log := { entries := log.entries.push event }

def events (log : Log) : List Event := log.entries.toList

def size (log : Log) : Nat := log.entries.size

def isEmpty (log : Log) : Bool := log.entries.isEmpty

def ofKind (log : Log) (kind : EventKind) : List Event := log.events.filter (·.kind = kind)

def has (log : Log) (kind : EventKind) : Bool := log.events.any (·.kind = kind)

def count (log : Log) (kind : EventKind) : Nat := log.events.countP (·.kind = kind)

def ofNamed (log : Log) (name : String) : List Event := log.events.filter (·.kernel = some name)

def counts (log : Log) : List (EventKind × Nat) :=
  (EventKind.all.filter log.has).map fun kind => (kind, log.count kind)

def kernelsAffected (log : Log) : Nat :=
  distinctCount ((log.events.filter (·.kind.isTransformation)).filterMap Event.kernel)

/-- The transformations that occur, counted and sorted as text; without any, the number of events. -/
def summary (log : Log) : String :=
  if log.isEmpty then "no events"
  else
    let parts := (log.counts.filter (·.1.isTransformation)).map fun (kind, n) => s!"{n} {kind.description}"
    if parts.isEmpty then s!"{log.size} events"
    else ", ".intercalate (parts.mergeSort fun a b => a ≤ b)

end Log
end SlotRotation
