import SlotRotation.Kernel.Edit

/-! Scoping of values. A value can be read after its definition in the same region and anywhere under what follows
there; an induction value can be read under its loop. `verify` looks for the first op or operand out of order. -/

namespace SlotRotation.Kernel

variable (k : Kernel)

def home? (id : OpId) : Option RegionId := (k.op? id).map Op.region

def standsBefore (a b : OpId) : Bool :=
  match k.position? a, k.position? b with
  | some a, some b => a < b
  | _, _ => false

def isInduction (id : OpId) (value : ValueId) : Bool :=
  match k.loop? id with
  | some l => l.induction = value
  | none => false

/-- The op at which `user` meets the region of `id`: `user` itself or the first op around it that stands there. -/
def meeting? (id user : OpId) : Option OpId :=
  (user :: k.ancestors user).find? fun op => k.home? op = k.home? id

def visibleAt (value : ValueId) (user : OpId) : Bool :=
  match k.definition? value with
  | none => false
  | some id =>
    if k.isInduction id value then k.isAncestor id user
    else
      match k.meeting? id user with
      | some op => k.standsBefore id op
      | none => false

def checkOperand (user : OpId) (operand : Nat) (value : ValueId) : Except Error Unit :=
  if (k.definition? value).isNone then .error (.malformed (.undefinedOperand operand user value))
  else if !k.visibleAt value user then .error (.malformed (.invisibleOperand operand user value))
  else .ok ()

def checkRegion (id : OpId) (instr : Instr) : Except Error Unit :=
  match instr.region? with
  | some region =>
    if k.owner? region = some id then .ok () else .error (.malformed (.foreignRegion id region))
  | none => .ok ()

def checkOp (id : OpId) : Except Error Unit := do
  let op ← k.getOp id
  k.checkRegion id op.instr
  op.instr.operands.zipIdx.forM fun (value, operand) => k.checkOperand id operand value

def verify : Except Error Unit := k.preorder.forM k.checkOp

end SlotRotation.Kernel
