import SlotRotation.Event.Log
import SlotRotation.Kernel.Edit

/-! Transformations of a kernel that keep a log. An error stops a transformation and takes nothing back. The policy
holds the choices that the expansion of buffers leaves open. -/

namespace SlotRotation

structure Policy where
  /-- Expand a buffer only if its first access in the loop overwrites it. -/
  requireOverwrite : Bool := false
  guards : Bool := true
  defaultDepth : UInt32 := 1
  /-- Fail on a resize directive that stands without a slot directive. -/
  orphansFail : Bool := false
deriving DecidableEq

def Policy.strict : Policy := { requireOverwrite := true, orphansFail := true }

structure Transform.State where
  kernel : Kernel
  log : Log := {}
  pass : String

abbrev Transform := EStateM Error Transform.State

namespace Transform

def State.record (s : State) (kind : EventKind) (op : OpId) (message : String) : State :=
  let event : Event :=
    { kind, kernel := some s.kernel.name, op := some op, message, pass := some s.pass }
  { s with log := s.log.push event }

def State.warn (s : State) (op : OpId) (message : String) : State := s.record .warning op message

def record (kind : EventKind) (op : OpId) (message : String) : Transform Unit := fun s =>
  .ok () (s.record kind op message)

def note (kind : EventKind) (op : OpId) : Transform Unit := record kind op kind.description

def edit {α : Type} (e : Edit α) : Transform α := fun s =>
  match e s.kernel with
  | .ok a kernel => .ok a { s with kernel }
  | .error err kernel => .error err { s with kernel }

/-- Reads something off the kernel, or fails without a change. -/
def query {α : Type} (f : Kernel → Except Error α) : Transform α := fun s =>
  match f s.kernel with
  | .ok a => .ok a s
  | .error err => .error err s

def currentKernel : Transform Kernel := fun s => .ok s.kernel s

/-- Runs a transformation and goes on from the state it leaves, failed or not. -/
def attempt {α : Type} (t : Transform α) : StateM State (Except Error α) := fun s =>
  match t s with
  | .ok a s => (.ok a, s)
  | .error err s => (.error err, s)

end Transform
end SlotRotation
