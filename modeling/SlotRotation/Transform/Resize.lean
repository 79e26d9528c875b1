import SlotRotation.Transform.Expansion

/-! Change of the slot count of an expanded buffer from `n` to `m`. If `m` divides `n` the first `m` slots stay, if
it is a multiple of `n` new slots are added; the selected value is kept, so the accesses stay as they are. Otherwise
`m` slots are allocated anew and every access is re-pointed. -/

namespace SlotRotation

inductive Strategy where
  | shrink | grow | reallocate
deriving DecidableEq

namespace Strategy

def text : Strategy → String
  | shrink => "shrink" | grow => "grow" | reallocate => "reallocate"

def choose (current target : Nat) : Strategy :=
  if target = current ∨ current % target = 0 then shrink
  else if target % current = 0 then grow
  else reallocate

end Strategy

namespace SlotSet

variable (set : SlotSet)

/-- The ops that a set lives by, apart from its loop and its accesses. -/
def members : List OpId :=
  set.slots.map Slot.alloc ++ [set.selector] ++ set.rotation.ops ++ set.releases.flatten

def checkLoop (k : Kernel) : Except Error Unit :=
  if (k.loop? set.loop).isSome then .ok () else .error (.malformed (.lostLoop set.loop))

def checkMembers (k : Kernel) : Except Error Unit :=
  match set.members.find? fun op => !k.isLive op with
  | some op => .error (.malformed (.lostMember op k.name))
  | none => .ok ()

def checkIntact (k : Kernel) : Except Error Unit := do
  set.checkLoop k
  set.checkMembers k

def lastSlot : Except Error Slot :=
  match set.slots.getLast? with
  | some slot => .ok slot
  | none => .error .emptySet

end SlotSet

namespace Edit

def moveSelector (set : SlotSet) (slots : List Slot) (index : ValueId) (point : InsertPoint) : Edit OpId := do
  let op ← insert (.selectSlot set.selected (slots.map Slot.value) index) point
  erase set.selector
  return op

/-- Fits one release to slots that were dropped behind the first `target` or added at the end. -/
def regroupRelease (target : Nat) (added : List Slot) (ops : List OpId) : Edit (List OpId) := do
  eraseAll (ops.drop target)
  match ops.getLast? with
  | some last =>
    let new ← releaseSlots added (.after last)
    return ops.take target ++ new
  | none => return []

def regroupReleases (target : Nat) (added : List Slot) : List (List OpId) → Edit (List (List OpId))
  | [] => pure []
  | ops :: releases => do
    let ops ← regroupRelease target added ops
    let rest ← regroupReleases target added releases
    return ops :: rest

/-- Releases other slots in place of the old ones; a release without ops has no place and is dropped. -/
def replaceReleases (slots : List Slot) : List (List OpId) → Edit (List (List OpId))
  | [] => pure []
  | [] :: releases => replaceReleases slots releases
  | (old :: olds) :: releases => do
    let ops ← releaseSlots slots (.before old)
    eraseAll (old :: olds)
    let rest ← replaceReleases slots releases
    return ops :: rest

end Edit

namespace Transform

def rebindFrom (old new : ValueId) : List Binding → Transform Unit
  | [] => pure ()
  | binding :: bindings => do
    let use := binding.use
    let found ← edit (Edit.setOperand use.user use.operand new)
    if found = old then
      recordRebound use new
      rebindFrom old new bindings
    else
      throw (.malformed (.unexpectedOperand use.operand use.user found old))

def discard : List Slot → Transform Unit
  | [] => pure ()
  | slot :: slots => do
    edit (Edit.erase slot.alloc)
    record .slotDiscarded slot.alloc s!"slot {slot.ordinal} ({slot.value})"
    discard slots

def regroup (set : SlotSet) (strategy : Strategy) (target : Nat) (last : Slot) (index : ValueId)
    (point : InsertPoint) : Transform SlotSet := do
  let kept := (set.slots.take target).map fun slot => { slot with origin := .reused slot.ordinal }
  let added ← edit (Edit.allocateSlots set.ty (fun _ => .fresh) set.factor (target - set.factor) (.after last.alloc))
  let selector ← edit (Edit.moveSelector set (kept ++ added) index point)
  let releases ← edit (Edit.regroupReleases target added set.releases)
  discard (set.slots.drop target)
  record .slotsRegrouped selector s!"{set.factor} -> {target} slots ({strategy.text})"
  return { set with slots := kept ++ added, selector, releases }

/-- Allocates all slots anew; each has one of the old slots as its model, in turn. -/
def reallocate (set : SlotSet) (target : Nat) (last : Slot) (index : ValueId) (point : InsertPoint) :
    Transform SlotSet := do
  let slots ← edit (Edit.allocateSlots set.ty (fun ordinal => .inherited (ordinal % set.factor)) 0 target
    (.after last.alloc))
  let (selector, selected) ← edit (Edit.selectAmong set.ty slots index point)
  rebindFrom set.selected selected set.bindings
  let releases ← edit (Edit.replaceReleases slots set.releases)
  edit (Edit.erase set.selector)
  discard set.slots
  record .slotsReallocated selector s!"{set.factor} -> {target} slots"
  return { set with slots, selector, selected, releases }

/-- Gives a set `factor` slots. The old set is no longer valid after that. -/
def resize (policy : Policy) (set : SlotSet) (factor : Int64) : Transform SlotSet := do
  let target ← query fun _ => slotsAsked factor
  let last ← query fun _ => set.lastSlot
  query set.checkIntact
  let guard ← renewGuard policy set target
  let top ← query (·.bodyTop set.loop)
  let rotation ← deriveRotation set.loop target top
  let point := top.past rotation.ops
  let resized ←
    match Strategy.choose set.factor target with
    | .reallocate => reallocate set target last rotation.value point
    | strategy => regroup set strategy target last rotation.value point
  edit (Edit.eraseAll set.rotation.ops.reverse)
  return {
    resized with
    rotation, guard, bindings := set.bindings.map fun binding => { binding with selector := resized.selector } }

end Transform
end SlotRotation
