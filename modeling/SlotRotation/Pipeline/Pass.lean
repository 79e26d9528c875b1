import SlotRotation.Pipeline.Job
import SlotRotation.Transform.Report

/-! Passes over single kernels, and the registry that knows them by name. -/

namespace SlotRotation

/-- A pass answers the kernel it leaves and whether it changed something, or an error. When it is reached it is first
asked whether it wants the kernel. `setUp` and `tearDown` frame a run over a whole program. All four may look at the
context, log events and report failures. -/
structure Pass where
  name : String
  description : String := "No description available"
  setUp : ExceptT Error Job Unit := pure ()
  tearDown : ExceptT Error Job Unit := pure ()
  wants : Kernel → Job Bool := fun _ => pure true
  run : Kernel → Job (Kernel × Except Error Bool)

namespace Pass

def multibufferName : String := "multibuffer"

def multibufferDescription : String := "Expand annotated allocations into rotating multi-buffer slots"

def hasDirective (k : Kernel) : Bool :=
  k.liveOps.any fun (_, op) => op.instr.alloc?.any Alloc.hasDirective

/-- Works on a kernel under the name of the pass, with a log of its own or after the events of `log`. -/
def multibufferRun (policy : Policy) (k : Kernel) (log : Log) : Report × Transform.State :=
  (Transform.multibuffer policy).run { kernel := k, log, pass := multibufferName }

def reportAll : Option Diagnostic → Job Unit
  | some diagnostic => Job.addFailure diagnostic
  | none => pure ()

def multibuffer (policy : Policy) : Pass where
  name := multibufferName
  description := multibufferDescription
  wants k := pure (hasDirective k)
  run k := do
    let (report, state) := multibufferRun policy k {}
    Job.recordAll state.log.events
    reportAll report.diagnostic
    return (state.kernel, .ok report.changed)

end Pass

structure PassEntry where
  name : String
  description : String
  make : Unit → Pass

structure Registry where
  entries : Std.TreeMap String PassEntry := ∅

namespace Registry

def register (r : Registry) (entry : PassEntry) : Registry :=
  { entries := r.entries.insert entry.name entry }

def multibufferEntry (name description : String) : PassEntry :=
  { name, description, make := fun _ => Pass.multibuffer {} }

def builtin : Registry :=
  ({} : Registry).register (multibufferEntry Pass.multibufferName Pass.multibufferDescription)

def get? (r : Registry) (name : String) : Option PassEntry := r.entries[name]?

def create (r : Registry) (name : String) : Except Error Pass :=
  match r.get? name with
  | some entry => .ok (entry.make ())
  | none => .error (.unknownPass name)

def names (r : Registry) : List String := r.entries.keys

def size (r : Registry) : Nat := r.entries.size

def isEmpty (r : Registry) : Bool := r.entries.isEmpty

end Registry
end SlotRotation
