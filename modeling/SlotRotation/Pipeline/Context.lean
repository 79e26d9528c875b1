import Std.Data.TreeMap
import Std.Data.TreeSet
import SlotRotation.Error
import SlotRotation.Event.Log

/-! What the kernels of a run share: the log, the first failure of each kernel, and the kernels that were
processed. -/

namespace SlotRotation

structure Context where
  log : Log := {}
  failures : Std.TreeMap String Diagnostic := ∅
  processed : Std.TreeSet String := ∅

namespace Context

def record (c : Context) (event : Event) : Context := { c with log := c.log.push event }

def keepFailure (c : Context) (d : Diagnostic) : Context :=
  { c with failures := c.failures.insertIfNew d.kernel d }

def failureEvent (d : Diagnostic) : Event := { kind := .error, kernel := some d.kernel, message := d.text }

def addFailure (c : Context) (d : Diagnostic) : Context := (c.record (failureEvent d)).keepFailure d

def failure? (c : Context) (name : String) : Option Diagnostic := c.failures[name]?

def hasFailed (c : Context) (name : String) : Bool := (c.failure? name).isSome

def hasFailures (c : Context) : Bool := !c.failures.isEmpty

def failedKernels (c : Context) : List String := c.failures.keys

def markDone (c : Context) (name : String) : Context :=
  { c with processed := c.processed.insert name }

def isDone (c : Context) (name : String) : Bool := c.processed.contains name

end Context
end SlotRotation
