import SlotRotation.Types

/-! Everything that can go wrong, as causes; the wording is in `message`. A diagnostic is what a user is told when a
kernel fails. -/

namespace SlotRotation

inductive Malformation where
  | deadOp (op : OpId) (kernel : String)
  | unplacedOp (op : OpId) (kernel : String)
  | unknownRegion (region : RegionId) (kernel : String)
  | missingOperand (op : OpId) (operand : Nat) (kernel : String)
  | foreignRegion (op : OpId) (region : RegionId)
  | undefinedOperand (operand : Nat) (op : OpId) (value : ValueId)
  | invisibleOperand (operand : Nat) (op : OpId) (value : ValueId)
  | deadLoop (op : OpId)
  | staleSite (alloc : OpId) (buffer : ValueId) (kernel : String)
  | leftoverUse (op : OpId) (buffer : ValueId)
  | lostLoop (op : OpId)
  | lostMember (op : OpId) (kernel : String)
  | unexpectedOperand (operand : Nat) (op : OpId) (found expected : ValueId)
  | tooManySlots (count : Nat)
deriving DecidableEq

def Malformation.message : Malformation → String
  | deadOp op kernel => s!"{op} is not a live op in @{kernel}"
  | unplacedOp op kernel => s!"{op} is not placed in a region of @{kernel}"
  | unknownRegion region kernel => s!"{region} is not a region of @{kernel}"
  | missingOperand op operand kernel => s!"{op} has no operand #{operand} in @{kernel}"
  | foreignRegion op region => s!"{op} does not own its region {region}"
  | undefinedOperand operand op value => s!"operand #{operand} of {op} ({value}) has no live definition"
  | invisibleOperand operand op value => s!"operand #{operand} of {op} ({value}) is not visible at its use"
  | deadLoop op => s!"{op} is not a live loop"
  | staleSite alloc buffer kernel => s!"{alloc} no longer allocates {buffer} in @{kernel}"
  | leftoverUse op buffer => s!"{op} still reads {buffer} after expansion"
  | lostLoop op => s!"loop {op} of the expanded set is gone"
  | lostMember op kernel => s!"{op} of the expanded set was erased in @{kernel}"
  | unexpectedOperand operand op found expected =>
    s!"operand #{operand} of {op} read {found} instead of {expected}"
  | tooManySlots count => s!"slot count {count} overflows"

inductive Error where
  | invalidFactor (factor : Int64)
  | noLoop (alloc : OpId)
  | notReplicable (element : Element)
  | emptySet
  | notOverwritten (alloc : OpId)
  | malformed (fault : Malformation)
  | unknownPass (name : String)
  | duplicateKernel (name : String)
  | failure (text : String)
deriving DecidableEq

def Error.message : Error → String
  | invalidFactor factor => s!"Invalid buffering factor {factor.toInt}, must be at least 1"
  | noLoop alloc => s!"No enclosing loop provides an iteration counter for {alloc}"
  | notReplicable element => s!"Element type {element} cannot be replicated into slots"
  | emptySet => "Expanded buffer set is empty, nothing to refactor"
  | notOverwritten alloc => s!"{alloc} is read before being overwritten inside the loop"
  | malformed fault => s!"Malformed - {fault.message}"
  | unknownPass name => s!"No pass registered under the name '{name}'"
  | duplicateKernel name => s!"Function @{name} is defined more than once"
  | failure text => text

inductive Severity where
  | error | warning
deriving DecidableEq

def Severity.text : Severity → String
  | error => "error" | warning => "warning"

structure Diagnostic where
  severity : Severity := .error
  location : Location := .unknown
  kernel : String
  message : String
deriving DecidableEq

namespace Diagnostic

def isError (d : Diagnostic) : Bool := d.severity = .error

def text (d : Diagnostic) : String :=
  s!"{d.location}: {d.severity.text}: {d.message} (in @{d.kernel})"

end Diagnostic

end SlotRotation
