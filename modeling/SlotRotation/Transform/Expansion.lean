import SlotRotation.Kernel.DefUse
import SlotRotation.Transform.Guard
import SlotRotation.Transform.Site

/-! Expansion of an allocation into slots that rotate over the iterations of the innermost loop that holds every
access and not the allocation. Everything that can be refused is checked before the first change. -/

namespace SlotRotation

def slotsAsked (factor : Int64) : Except Error Nat :=
  if factor < 1 then .error (.invalidFactor factor) else .ok factor.toNatClampNeg

structure Expansion where
  slots : Nat
  loop : OpId
  accesses : List Use
  releases : List Use
deriving DecidableEq

namespace Kernel

variable (k : Kernel)

def isRelease (use : Use) : Bool := (k.instr? use.user).any Instr.isDealloc

def overwrites (use : Use) : Bool :=
  (k.instr? use.user).any fun instr => (instr.effectsOn use.operand).overwrite

/-- The innermost loop around every access that is not around the allocation. -/
def rotationLoop? (alloc : OpId) (accesses : List Use) : Option OpId := do
  let first ← accesses.head?
  (k.loopsAround first.user).find? fun loop =>
    !k.isAncestor loop alloc && accesses.all fun use => k.isAncestor loop use.user

end Kernel

namespace Site

variable (site : Site)

def checkElement : Except Error Unit :=
  if site.ty.element.replicable then .ok () else .error (.notReplicable site.ty.element)

def checkAlloc (k : Kernel) : Except Error Unit :=
  if (k.alloc? site.alloc).any fun alloc => alloc.result = site.buffer then .ok ()
  else .error (.malformed (.staleSite site.alloc site.buffer k.name))

def chooseLoop (k : Kernel) (accesses : List Use) : Except Error OpId :=
  match k.rotationLoop? site.alloc accesses with
  | some loop => .ok loop
  | none => .error (.noLoop site.alloc)

def checkOverwrite (policy : Policy) (k : Kernel) (accesses : List Use) : Except Error Unit :=
  if !policy.requireOverwrite || accesses.head?.any k.overwrites then .ok ()
  else .error (.notOverwritten site.alloc)

/-- The expansion of a site, or the first reason against it. -/
def expansion (policy : Policy) (k : Kernel) (factor : Int64) : Except Error Expansion := do
  let slots ← slotsAsked factor
  site.checkElement
  site.checkAlloc k
  let uses := (DefUse.ofKernel k).usesOf site.buffer
  let accesses := uses.filter fun use => !k.isRelease use
  let loop ← site.chooseLoop k accesses
  site.checkOverwrite policy k accesses
  return { slots, loop, accesses, releases := uses.filter k.isRelease }

end Site

namespace Edit

/-- Allocates `count` slots numbered from `first`, one behind the other. There is no limit of memory: however many
slots are asked for, they are allocated. -/
def allocateSlots (ty : BufferType) (origin : Nat → SlotOrigin) :
    (first count : Nat) → InsertPoint → Edit (List Slot)
  | _, 0, _ => pure []
  | first, count + 1, point => do
    let value ← newValue (.buffer ty)
    let alloc ← insert (.alloc { result := value, ty }) point
    let rest ← allocateSlots ty origin (first + 1) count (.after alloc)
    return { ordinal := first, alloc, value, origin := origin first } :: rest

def selectAmong (ty : BufferType) (slots : List Slot) (index : ValueId) (point : InsertPoint) :
    Edit (OpId × ValueId) := do
  let result ← newValue (.buffer ty)
  let op ← insert (.selectSlot result (slots.map Slot.value) index) point
  return (op, result)

def releaseSlots : List Slot → InsertPoint → Edit (List OpId)
  | [], _ => pure []
  | slot :: slots, point => do
    let op ← insert (.dealloc slot.value) point
    let ops ← releaseSlots slots (.after op)
    return op :: ops

def splitReleases (slots : List Slot) : List Use → Edit (List (List OpId))
  | [] => pure []
  | use :: uses => do
    let ops ← releaseSlots slots (.before use.user)
    erase use.user
    let rest ← splitReleases slots uses
    return ops :: rest

end Edit

namespace Transform

def recordRebound (use : Use) (selected : ValueId) : Transform Unit :=
  record .useRebound use.user s!"operand #{use.operand} -> {selected}"

def rebind (selected : ValueId) : List Use → Transform Unit
  | [] => pure ()
  | use :: uses => do
    let _ ← edit (Edit.setOperand use.user use.operand selected)
    recordRebound use selected
    rebind selected uses

def checkLeftover (buffer : ValueId) (k : Kernel) : Except Error Unit :=
  match k.usesOf buffer with
  | [] => .ok ()
  | use :: _ => .error (.malformed (.leftoverUse use.user buffer))

def expand (policy : Policy) (site : Site) (factor : Int64) : Transform SlotSet := do
  let e ← query fun k => site.expansion policy k factor
  let slots ← edit (Edit.allocateSlots site.ty (fun _ => .fresh) 0 e.slots (.after site.alloc))
  record .slotsCreated site.alloc s!"{e.slots} x {site.ty}"
  let guard ← guardFor policy site.ty e.loop e.slots
  let top ← query (·.bodyTop e.loop)
  let rotation ← deriveRotation e.loop e.slots top
  let (selector, selected) ←
    edit (Edit.selectAmong site.ty slots rotation.value (top.past rotation.ops))
  rebind selected e.accesses
  let releases ← edit (Edit.splitReleases slots e.releases)
  edit (Edit.erase site.alloc)
  query (checkLeftover site.buffer)
  return {
    ty := site.ty, slots, loop := e.loop, rotation, selector, selected,
    bindings := e.accesses.map fun use => { use, selector }, releases, guard }

end Transform
end SlotRotation
