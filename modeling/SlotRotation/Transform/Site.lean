import SlotRotation.Transform.Basic

/-! Annotated allocations. A survey takes both directives off every allocation it meets, so no second survey finds
them again, whatever becomes of the allocation. -/

namespace SlotRotation

structure Site where
  alloc : OpId
  buffer : ValueId
  ty : BufferType
  factor : Int64
  resize : Option Int64 := none
deriving DecidableEq

/-- The sites of a kernel in pre-order, and the allocations that only had a resize directive. -/
structure Survey where
  sites : List Site := []
  orphans : List OpId := []
deriving DecidableEq

def Survey.append (a b : Survey) : Survey :=
  { sites := a.sites ++ b.sites, orphans := a.orphans ++ b.orphans }

def Alloc.stripped (alloc : Alloc) : Alloc := { alloc with multibuffer := none, remultibuffer := none }

namespace Transform

def directiveText (factor : Int64) : Option Int64 → String
  | some resize => s!"multibuffer = {factor.toInt}, remultibuffer = {resize.toInt}"
  | none => s!"multibuffer = {factor.toInt}"

def surveyOp (id : OpId) (s : State) : Survey × State :=
  match s.kernel.alloc? id with
  | none => ({}, s)
  | some alloc =>
    let stripped := { s with kernel := s.kernel.updateAlloc id Alloc.stripped }
    match alloc.multibuffer, alloc.remultibuffer with
    | none, none => ({}, s)
    | some factor, resize =>
      ({ sites := [{ alloc := id, buffer := alloc.result, ty := alloc.ty, factor, resize }] },
        stripped.record .directiveConsumed id (directiveText factor resize))
    | none, some resize =>
      ({ orphans := [id] },
        stripped.warn id s!"remultibuffer = {resize.toInt} without multibuffer directive, dropped")

def surveyOps : List OpId → State → Survey × State
  | [], s => ({}, s)
  | id :: ids, s =>
    let (found, s) := surveyOp id s
    let (rest, s) := surveyOps ids s
    (found.append rest, s)

def survey : StateM State Survey := fun s => surveyOps s.kernel.preorder s

end Transform
end SlotRotation
