import Std.Data.TreeMap
import SlotRotation.Kernel.Nesting

/-! A snapshot of a kernel taken in one walk: the place of each op, and the definition and the uses of each value.
Changes to the kernel do not touch it. -/

namespace SlotRotation

structure DefUse where
  ranks : Std.TreeMap OpId Nat := ∅
  definitions : Std.TreeMap ValueId OpId := ∅
  uses : Std.TreeMap ValueId (Array Use) := ∅

namespace DefUse

def addDefinition (s : DefUse) (id : OpId) (value : ValueId) : DefUse :=
  { s with definitions := s.definitions.insert value id }

def addUse (s : DefUse) (value : ValueId) (use : Use) : DefUse :=
  { s with uses := s.uses.alter value fun uses => some ((uses.getD #[]).push use) }

def addRank (s : DefUse) (id : OpId) (position : Nat) : DefUse :=
  { s with ranks := s.ranks.insert id position }

def addOp (s : DefUse) (id : OpId) (op : Op) : DefUse :=
  let s := (op.instr.result?.map (s.addDefinition id)).getD s
  op.instr.operands.zipIdx.foldl (fun s (value, operand) => s.addUse value { user := id, operand }) s

/-- Takes in the op at a place of the walk; an op that is not live has a place and nothing else. -/
def add (k : Kernel) (s : DefUse) (id : OpId) (position : Nat) : DefUse :=
  let s := s.addRank id position
  match k.op? id with
  | some op => s.addOp id op
  | none => s

def ofKernel (k : Kernel) : DefUse :=
  k.preorder.zipIdx.foldl (fun s (id, position) => s.add k id position) {}

def usesOf (s : DefUse) (value : ValueId) : List Use := (s.uses[value]?.map Array.toList).getD []

def useCount (s : DefUse) (value : ValueId) : Nat := (s.usesOf value).length

def isUnused (s : DefUse) (value : ValueId) : Bool := s.useCount value == 0

def definition? (s : DefUse) (value : ValueId) : Option OpId := s.definitions[value]?

def rank? (s : DefUse) (id : OpId) : Option Nat := s.ranks[id]?

def precedes (s : DefUse) (a b : OpId) : Bool :=
  match s.rank? a, s.rank? b with
  | some a, some b => a < b
  | _, _ => false

end DefUse
end SlotRotation
