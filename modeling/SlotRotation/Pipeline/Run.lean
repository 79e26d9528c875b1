import SlotRotation.Event.Stats
import SlotRotation.Pipeline.Pass

/-! Passes in order over every kernel of a program. The kernels have nothing but the context in common, so it does
not matter which is processed first; the passes on one kernel run in order. -/

namespace SlotRotation

structure Program where
  kernels : List Kernel := []
deriving DecidableEq

namespace Program

def names (p : Program) : List String := p.kernels.map Kernel.name

def find? (p : Program) (name : String) : Option Kernel := p.kernels.find? (·.name = name)

def push (p : Program) (k : Kernel) : Except Error Program :=
  if (p.find? k.name).isSome then .error (.duplicateKernel k.name)
  else .ok { kernels := p.kernels ++ [k] }

def firstRepeated? (seen : List String) : List String → Option String
  | [] => none
  | name :: names => if name ∈ seen then some name else firstRepeated? (name :: seen) names

def duplicate? (p : Program) : Option String := firstRepeated? [] p.names

end Program

structure RunOptions where
  /-- Kernels may be processed side by side. Nothing in a report depends on it. -/
  parallel : Bool := true
  stopOnFailure : Bool := true
deriving DecidableEq

def RunOptions.sequential : RunOptions := { parallel := false }

inductive KernelStatus where
  | unchanged
  | changed
  | failed (diagnostic : Diagnostic)
deriving DecidableEq

structure KernelOutcome where
  kernel : String
  status : KernelStatus
  passesRun : Nat
deriving DecidableEq

def KernelOutcome.isFailure (o : KernelOutcome) : Bool :=
  match o.status with
  | .failed _ => true
  | .unchanged | .changed => false

structure RunReport where
  outcomes : List KernelOutcome
  stats : Stats
deriving DecidableEq

namespace RunReport

def succeeded (r : RunReport) : Bool := !r.outcomes.any KernelOutcome.isFailure

def outcome? (r : RunReport) (name : String) : Option KernelOutcome :=
  r.outcomes.find? (·.kernel = name)

def failures (r : RunReport) : List KernelOutcome := r.outcomes.filter KernelOutcome.isFailure

def changedCount (r : RunReport) : Nat := r.outcomes.countP (·.status = .changed)

end RunReport

structure Pipeline where
  options : RunOptions := {}
  passes : List Pass := []

structure Progress where
  kernel : Kernel
  changed : Bool := false
  passesRun : Nat := 0

namespace Pipeline

def add (p : Pipeline) (pass : Pass) : Pipeline := { p with passes := p.passes ++ [pass] }

def ofNames (options : RunOptions) (registry : Registry) (names : List String) :
    Except Error Pipeline := do
  let passes ← names.mapM registry.create
  return { options, passes }

def diagnosticOf (k : Kernel) (name : String) (error : Error) : Diagnostic :=
  { location := k.location, kernel := name, message := error.message }

def runPass (name : String) (pass : Pass) (progress : Progress) : Job Progress := do
  Job.recordEvent { kind := .passStarted, kernel := some name, pass := some pass.name }
  let (kernel, verdict) ← pass.run progress.kernel
  let changed ←
    match verdict with
    | .ok changed => pure changed
    | .error error => do
      Job.addFailure (diagnosticOf kernel name error)
      pure false
  Job.recordEvent { kind := .passCompleted, kernel := some name, pass := some pass.name }
  return { kernel, changed := progress.changed || changed, passesRun := progress.passesRun + 1 }

def stops (options : RunOptions) (name : String) : Job Bool :=
  if options.stopOnFailure then do
    let failure ← Job.failure? name
    return failure.isSome
  else
    return false

def runPasses (options : RunOptions) (name : String) : List Pass → Progress → Job Progress
  | [], progress => pure progress
  | pass :: passes, progress => do
    if ← stops options name then
      return progress
    else if ← pass.wants progress.kernel then
      let progress ← runPass name pass progress
      runPasses options name passes progress
    else
      runPasses options name passes progress

def statusOf (progress : Progress) : Option Diagnostic → KernelStatus
  | some diagnostic => .failed diagnostic
  | none => if progress.changed then .changed else .unchanged

def runKernel (options : RunOptions) (passes : List Pass) (k : Kernel) : Job (Kernel × KernelOutcome) := do
  let name := k.name
  Job.recordEvent { kind := .kernelStarted, kernel := some name }
  let progress ← runPasses options name passes { kernel := k }
  Job.markDone name
  Job.recordEvent { kind := .kernelCompleted, kernel := some name }
  let failure ← Job.failure? name
  return (progress.kernel,
    { kernel := name, status := statusOf progress failure, passesRun := progress.passesRun })

def runKernels (p : Pipeline) : List Kernel → Context → List (Kernel × KernelOutcome) × Context
  | [], c => ([], c)
  | k :: ks, c =>
    let (result, c) := (runKernel p.options p.passes k).run c
    let (results, c) := p.runKernels ks c
    (result :: results, c)

def frame (step : Pass → ExceptT Error Job Unit) (passes : List Pass) : Job (Except Error Unit) :=
  ExceptT.run (passes.forM step)

/-- The run, the program and the context it leaves. A repeated name or a failed set-up stops it before the first
kernel; after a failed tear-down the kernels stay as they were left. -/
def run (p : Pipeline) (program : Program) (c : Context) : Except Error RunReport × Program × Context :=
  match program.duplicate? with
  | some name => (.error (.duplicateKernel name), program, c)
  | none =>
    match (frame Pass.setUp p.passes).run c with
    | (.error error, c) => (.error error, program, c)
    | (.ok (), c) =>
      let (results, c) := p.runKernels program.kernels c
      let program := { kernels := results.map Prod.fst }
      match (frame Pass.tearDown p.passes).run c with
      | (.error error, c) => (.error error, program, c)
      | (.ok (), c) => (.ok { outcomes := results.map Prod.snd, stats := Stats.ofLog c.log }, program, c)

end Pipeline
end SlotRotation
