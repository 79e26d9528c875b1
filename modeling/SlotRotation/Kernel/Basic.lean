import SlotRotation.Instr

/-! A kernel is three stores addressed by ids: ops, regions and values. Ids are never used again, and an erased op
leaves a gap. A region is an ordered list of ops; the body of the kernel is region 0, every other region is the body
of a loop. -/

namespace SlotRotation

structure Op where
  instr : Instr
  region : RegionId
deriving DecidableEq

structure Region where
  ops : List OpId := []
  owner : Option OpId := none
deriving DecidableEq

structure Value where
  ty : ValueType
  definition : Option OpId := none
deriving DecidableEq

structure Kernel where
  name : String
  location : Location := .unknown
  ops : Array (Option Op) := #[]
  regions : Array Region := #[{}]
  values : Array Value := #[]
deriving DecidableEq

namespace Kernel

variable (k : Kernel)

def body : RegionId := ⟨0⟩

def op? (id : OpId) : Option Op := k.ops[id.index]?.join

def isLive (id : OpId) : Bool := (k.op? id).isSome

def instr? (id : OpId) : Option Instr := (k.op? id).map Op.instr

def alloc? (id : OpId) : Option Alloc := (k.instr? id).bind Instr.alloc?

def loop? (id : OpId) : Option Loop := (k.instr? id).bind Instr.loop?

def liveOps : List (OpId × Op) :=
  k.ops.toList.zipIdx.filterMap fun (op, index) => op.map fun op => (⟨index⟩, op)

def opCount : Nat := k.liveOps.length

def value? (id : ValueId) : Option Value := k.values[id.index]?

def typeOf? (id : ValueId) : Option ValueType := (k.value? id).map Value.ty

/-- The recorded definition of a value, as long as that op is live. -/
def definition? (id : ValueId) : Option OpId :=
  ((k.value? id).bind Value.definition).filter k.isLive

def constant? (id : ValueId) : Option Int64 :=
  match (k.definition? id).bind k.instr? with
  | some (.constant _ value) => some value
  | _ => none

def region? (id : RegionId) : Option Region := k.regions[id.index]?

def regionOps (id : RegionId) : List OpId := ((k.region? id).map Region.ops).getD []

/-- The op recorded as owner of a region; it stays recorded when it is erased. -/
def owner? (id : RegionId) : Option OpId := (k.region? id).bind Region.owner

def position? (id : OpId) : Option Nat := do
  let op ← k.op? id
  (k.regionOps op.region).idxOf? id

def nextOp : OpId := ⟨k.ops.size⟩

def setOp (id : OpId) (op : Option Op) : Kernel :=
  { k with ops := k.ops.setIfInBounds id.index op }

def updateRegion (id : RegionId) (f : Region → Region) : Kernel :=
  { k with regions := k.regions.modify id.index f }

def updateValue (id : ValueId) (f : Value → Value) : Kernel :=
  { k with values := k.values.modify id.index f }

def addValue (ty : ValueType) : Kernel := { k with values := k.values.push { ty } }

def addRegion : Kernel := { k with regions := k.regions.push {} }

def setInstr (id : OpId) (instr : Instr) : Kernel :=
  match k.op? id with
  | some op => k.setOp id (some { op with instr })
  | none => k

def updateAlloc (id : OpId) (f : Alloc → Alloc) : Kernel :=
  match k.alloc? id with
  | some alloc => k.setInstr id (.alloc (f alloc))
  | none => k

def updateLoop (id : OpId) (f : Loop → Loop) : Kernel :=
  match k.loop? id with
  | some l => k.setInstr id (.loop (f l))
  | none => k

end Kernel
end SlotRotation
