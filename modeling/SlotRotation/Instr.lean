import SlotRotation.Arith
import SlotRotation.Types

/-! What an op does: its result, its operands in order, the memory effects on them and the region it owns. -/

namespace SlotRotation

structure Effects where
  read : Bool := false
  write : Bool := false
  overwrite : Bool := false
  free : Bool := false
deriving DecidableEq

/-- One bit per effect: read, write, overwrite, free from the lowest up. -/
def Effects.bits (effects : Effects) : Nat :=
  effects.read.toNat + 2 * effects.write.toNat + 4 * effects.overwrite.toNat + 8 * effects.free.toNat

/-- An allocation and its two directives: the slots wanted, and the slots wanted after that. -/
structure Alloc where
  result : ValueId
  ty : BufferType
  multibuffer : Option Int64 := none
  remultibuffer : Option Int64 := none
deriving DecidableEq

def Alloc.hasDirective (alloc : Alloc) : Bool := alloc.multibuffer.isSome || alloc.remultibuffer.isSome

/-- A counted loop; `depth` is the number of iterations that may be in flight at once. -/
structure Loop where
  induction : ValueId
  lower : ValueId
  upper : ValueId
  step : ValueId
  body : RegionId
  depth : Option UInt32 := none
deriving DecidableEq

inductive Instr where
  | alloc (alloc : Alloc)
  | dealloc (buffer : ValueId)
  | constant (result : ValueId) (value : Int64)
  | arith (result : ValueId) (op : ArithOp) (lhs rhs : ValueId)
  | loop (loop : Loop)
  | load (result buffer : ValueId) (indices : List ValueId)
  | store (value buffer : ValueId) (indices : List ValueId)
  | fill (buffer value : ValueId)
  | copy (source target : ValueId)
  | compute (name : String) (inputs outputs : List ValueId)
  | selectSlot (result : ValueId) (slots : List ValueId) (index : ValueId)
  | barrier
  | yield
  | ret
deriving DecidableEq

namespace Instr

def mnemonic : Instr → String
  | alloc _ => "alloc"
  | dealloc _ => "dealloc"
  | constant .. => "constant"
  | arith .. => "arith"
  | loop _ => "for"
  | load .. => "load"
  | store .. => "store"
  | fill .. => "fill"
  | copy .. => "copy"
  | compute .. => "compute"
  | selectSlot .. => "select_slot"
  | barrier => "barrier"
  | yield => "yield"
  | ret => "return"

/-- The value that an op defines; a loop defines its induction value. -/
def result? : Instr → Option ValueId
  | alloc a => some a.result
  | constant result _ | arith result .. | load result .. | selectSlot result .. => some result
  | loop l => some l.induction
  | _ => none

def operands : Instr → List ValueId
  | alloc _ | constant .. | barrier | yield | ret => []
  | dealloc buffer => [buffer]
  | arith _ _ lhs rhs => [lhs, rhs]
  | loop l => [l.lower, l.upper, l.step]
  | load _ buffer indices => buffer :: indices
  | store value buffer indices => value :: buffer :: indices
  | fill buffer value => [buffer, value]
  | copy source target => [source, target]
  | compute _ inputs outputs => inputs ++ outputs
  | selectSlot _ slots index => slots ++ [index]

def exchangeAt? (values : List ValueId) (n : Nat) (value : ValueId) : Option (ValueId × List ValueId) :=
  values[n]?.map fun old => (old, values.set n value)

def exchange? (instr : Instr) (n : Nat) (value : ValueId) : Option (ValueId × Instr) :=
  match instr with
  | alloc _ | constant .. | barrier | yield | ret => none
  | dealloc buffer => if n = 0 then some (buffer, dealloc value) else none
  | arith result op lhs rhs =>
    match n with
    | 0 => some (lhs, arith result op value rhs)
    | 1 => some (rhs, arith result op lhs value)
    | _ => none
  | loop l =>
    match n with
    | 0 => some (l.lower, loop { l with lower := value })
    | 1 => some (l.upper, loop { l with upper := value })
    | 2 => some (l.step, loop { l with step := value })
    | _ => none
  | load result buffer indices =>
    match n with
    | 0 => some (buffer, load result value indices)
    | n + 1 => (exchangeAt? indices n value).map fun (old, indices) => (old, load result buffer indices)
  | store stored buffer indices =>
    match n with
    | 0 => some (stored, store value buffer indices)
    | 1 => some (buffer, store stored value indices)
    | n + 2 => (exchangeAt? indices n value).map fun (old, indices) => (old, store stored buffer indices)
  | fill buffer filler =>
    match n with
    | 0 => some (buffer, fill value filler)
    | 1 => some (filler, fill buffer value)
    | _ => none
  | copy source target =>
    match n with
    | 0 => some (source, copy value target)
    | 1 => some (target, copy source value)
    | _ => none
  | compute name inputs outputs =>
    if n < inputs.length then
      (exchangeAt? inputs n value).map fun (old, inputs) => (old, compute name inputs outputs)
    else
      (exchangeAt? outputs (n - inputs.length) value).map fun (old, outputs) =>
        (old, compute name inputs outputs)
  | selectSlot result slots index =>
    if n = slots.length then some (index, selectSlot result slots value)
    else (exchangeAt? slots n value).map fun (old, slots) => (old, selectSlot result slots index)

/-- The effects on operand `n`. A copy overwrites whatever is not its source, and a computation writes whatever is
not one of its inputs. -/
def effectsOn (instr : Instr) (n : Nat) : Effects :=
  match instr with
  | dealloc _ => { free := n == 0 }
  | load .. => { read := n == 0 }
  | store .. => { write := n == 1 }
  | fill .. => { write := n == 0, overwrite := n == 0 }
  | copy .. => { read := n == 0, write := n != 0, overwrite := n != 0 }
  | compute _ inputs _ => { read := n < inputs.length, write := inputs.length ≤ n }
  | _ => {}

def region? : Instr → Option RegionId
  | loop l => some l.body
  | _ => none

def alloc? : Instr → Option Alloc
  | alloc a => some a
  | _ => none

def loop? : Instr → Option Loop
  | loop l => some l
  | _ => none

def isDealloc : Instr → Bool
  | dealloc _ => true
  | _ => false

def isBarrier : Instr → Bool
  | barrier => true
  | _ => false

end Instr
end SlotRotation
