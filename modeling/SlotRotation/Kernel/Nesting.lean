import SlotRotation.Kernel.Basic

/-! Nesting of ops, seen upwards (the ops around an op) and downwards (the ops under it, in pre-order). Both follow
regions and never meet one twice, so the number of regions bounds how far they go. -/

namespace SlotRotation

structure Use where
  user : OpId
  operand : Nat
deriving DecidableEq

namespace Kernel

variable (k : Kernel)

def parent? (id : OpId) : Option OpId := do
  let op ← k.op? id
  k.owner? op.region

def ancestorsWithin (k : Kernel) : Nat → OpId → List OpId
  | 0, _ => []
  | n + 1, id =>
    match k.parent? id with
    | some parent => parent :: k.ancestorsWithin n parent
    | none => []

def ancestors (id : OpId) : List OpId := k.ancestorsWithin k.regions.size id

def isAncestor (ancestor id : OpId) : Bool := ancestor ∈ k.ancestors id

def loopsAround (id : OpId) : List OpId := (k.ancestors id).filter fun op => (k.loop? op).isSome

def nearestLoop? (id : OpId) : Option OpId := (k.loopsAround id).head?

def nested? (id : OpId) : Option RegionId := (k.instr? id).bind Instr.region?

def preorderWithin (k : Kernel) : Nat → RegionId → List OpId
  | 0, _ => []
  | n + 1, region => (k.regionOps region).flatMap fun id =>
    id :: ((k.nested? id).map (k.preorderWithin n)).getD []

/-- The ops on the list of a region and on the lists under it, each before those it holds. -/
def preorderFrom (region : RegionId) : List OpId := k.preorderWithin k.regions.size region

def preorder : List OpId := k.preorderFrom body

def descendants (id : OpId) : List OpId := ((k.nested? id).map k.preorderFrom).getD []

def liveInOrder : List (OpId × Op) := k.preorder.filterMap fun id => (k.op? id).map fun op => (id, op)

def readsIn (value : ValueId) (id : OpId) (op : Op) : List Use :=
  op.instr.operands.zipIdx.filterMap fun (used, operand) =>
    if used = value then some { user := id, operand } else none

def usesOf (value : ValueId) : List Use := k.liveInOrder.flatMap fun (id, op) => readsIn value id op

end Kernel
end SlotRotation
