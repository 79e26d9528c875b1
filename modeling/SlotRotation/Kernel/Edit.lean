import SlotRotation.Error
import SlotRotation.Kernel.Nesting

/-! Changes of a kernel that can be refused. A refusal carries the kernel as it was left. -/

namespace SlotRotation

inductive InsertPoint where
  | before (op : OpId)
  | after (op : OpId)
  | first (region : RegionId)
  | last (region : RegionId)
deriving DecidableEq

/-- The point behind the last of `ops`, or the point itself if there are none. -/
def InsertPoint.past (point : InsertPoint) (ops : List OpId) : InsertPoint :=
  (ops.getLast?.map .after).getD point

/-- A change of a kernel that gives an answer or an error, and a kernel in both cases. -/
abbrev Edit := EStateM Error Kernel

namespace Kernel

variable (k : Kernel)

def getOp (id : OpId) : Except Error Op :=
  match k.op? id with
  | some op => .ok op
  | none => .error (.malformed (.deadOp id k.name))

def getPosition (id : OpId) : Except Error Nat :=
  match k.position? id with
  | some position => .ok position
  | none => .error (.malformed (.unplacedOp id k.name))

def getRegion (id : RegionId) : Except Error Region :=
  match k.region? id with
  | some region => .ok region
  | none => .error (.malformed (.unknownRegion id k.name))

def resolve : InsertPoint → Except Error (RegionId × Nat)
  | .before anchor => do
    let op ← k.getOp anchor
    let position ← k.getPosition anchor
    return (op.region, position)
  | .after anchor => do
    let op ← k.getOp anchor
    let position ← k.getPosition anchor
    return (op.region, position + 1)
  | .first region => do
    let _ ← k.getRegion region
    return (region, 0)
  | .last region => do
    let r ← k.getRegion region
    return (region, r.ops.length)

def define (instr : Instr) (id : OpId) : Kernel :=
  match instr.result? with
  | some value => k.updateValue value ({ · with definition := some id })
  | none => k

def own (instr : Instr) (id : OpId) : Kernel :=
  match instr.region? with
  | some region => k.updateRegion region ({ · with owner := some id })
  | none => k

def place (instr : Instr) (region : RegionId) (index : Nat) : Kernel :=
  let id := k.nextOp
  { k with ops := k.ops.push (some { instr, region }) }.updateRegion region
    fun r => { r with ops := r.ops.insertIdx index id }

/-- Puts a new op at the end of a region that is known to exist. -/
def append (instr : Instr) (region : RegionId) : Kernel :=
  let k := (k.define instr k.nextOp).own instr k.nextOp
  k.place instr region (k.regionOps region).length

def unknownRegion? (instr : Instr) : Option RegionId :=
  instr.region?.filter fun region => (k.region? region).isNone

def remove (id : OpId) (op : Op) : Kernel :=
  let dead := k.descendants id ++ [id]
  let k := k.updateRegion op.region fun r => { r with ops := r.ops.erase id }
  let k := dead.foldl (fun k id => k.setOp id none) k
  match k.regions.findIdx? fun r => r.owner == some id with
  | some owned => k.updateRegion ⟨owned⟩ fun r => { r with ops := [] }
  | none => k

end Kernel

namespace Edit

def newValue (ty : ValueType) : Edit ValueId := fun k => .ok ⟨k.values.size⟩ (k.addValue ty)

def newRegion : Edit RegionId := fun k => .ok ⟨k.regions.size⟩ k.addRegion

/-- Inserts an op and records it as the definition of its result. The definition is recorded before the region that
the op wants to own is looked up, and stays recorded if there is none. -/
def insert (instr : Instr) (point : InsertPoint) : Edit OpId := fun k =>
  match k.resolve point with
  | .error e => .error e k
  | .ok (region, index) =>
    let id := k.nextOp
    let defined := k.define instr id
    match k.unknownRegion? instr with
    | some owned => .error (.malformed (.unknownRegion owned k.name)) defined
    | none => .ok id ((defined.own instr id).place instr region index)

def erase (id : OpId) : Edit Unit := fun k =>
  match k.getOp id with
  | .error e => .error e k
  | .ok op => .ok () (k.remove id op)

def eraseAll : List OpId → Edit Unit
  | [] => pure ()
  | id :: ids => do
    erase id
    eraseAll ids

def setOperand (user : OpId) (operand : Nat) (value : ValueId) : Edit ValueId := fun k =>
  match k.getOp user with
  | .error e => .error e k
  | .ok op =>
    match op.instr.exchange? operand value with
    | some (old, instr) => .ok old (k.setInstr user instr)
    | none => .error (.malformed (.missingOperand user operand k.name)) k

end Edit
end SlotRotation
