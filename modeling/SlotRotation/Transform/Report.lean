import SlotRotation.Transform.Resize

/-! One kernel from directives to slots: survey, expansion of every site, then the resizing of those that ask for
it. A site that fails does not stop the others, and nothing is taken back. -/

namespace SlotRotation

inductive Phase where
  | idle | discovering | expanding | resizing | done | failed
deriving DecidableEq

namespace Phase

def text : Phase → String
  | idle => "Idle"
  | discovering => "Discovering"
  | expanding => "Expanding"
  | resizing => "Refactoring"
  | done => "Done"
  | failed => "Failed"

def canBecome : Phase → Phase → Bool
  | idle, discovering => true
  | discovering, expanding => true
  | expanding, resizing | expanding, done | expanding, failed => true
  | resizing, done | resizing, failed => true
  | _, _ => false

def isTerminal : Phase → Bool
  | done | failed => true
  | _ => false

end Phase

/-- What became of a site; `before` is the slot count ahead of the resizing. -/
inductive Fate where
  | expanded (set : SlotSet)
  | resized (before : Nat) (set : SlotSet)
  | notExpanded (error : Error)
  | notResized (set : SlotSet) (error : Error)
deriving DecidableEq

structure SiteResult where
  site : Site
  status : Fate
deriving DecidableEq

namespace SiteResult

def isSuccess (o : SiteResult) : Bool :=
  match o.status with
  | .expanded _ | .resized .. => true
  | .notExpanded _ | .notResized .. => false

def set? (o : SiteResult) : Option SlotSet :=
  match o.status with
  | .expanded set | .resized _ set | .notResized set _ => some set
  | .notExpanded _ => none

def error? (o : SiteResult) : Option Error :=
  match o.status with
  | .notExpanded error | .notResized _ error => some error
  | .expanded _ | .resized .. => none

def pending? (o : SiteResult) : Option (SlotSet × Int64) :=
  match o.status, o.site.resize with
  | .expanded set, some factor => some (set, factor)
  | _, _ => none

end SiteResult

structure Report where
  kernel : String
  phase : Phase
  history : List Phase
  outcomes : List SiteResult
  orphans : List OpId
  diagnostic : Option Diagnostic
deriving DecidableEq

namespace Report

def succeeded (r : Report) : Bool := r.phase = .done

/-- The kernel was touched, if only to take directives off. -/
def changed (r : Report) : Bool := !r.outcomes.isEmpty || !r.orphans.isEmpty

def failedSites (r : Report) : List SiteResult := r.outcomes.filter fun o => !o.isSuccess

def sets (r : Report) : List SlotSet := r.outcomes.filterMap SiteResult.set?

end Report

namespace Transform

def expandSite (policy : Policy) (site : Site) : StateM State SiteResult := do
  match ← attempt (expand policy site site.factor) with
  | .ok set => return { site, status := .expanded set }
  | .error error =>
    modify (·.record .error site.alloc s!"expansion failed: {error.message}")
    return { site, status := .notExpanded error }

def expandSites (policy : Policy) : List Site → StateM State (List SiteResult)
  | [] => pure []
  | site :: sites => do
    let outcome ← expandSite policy site
    let rest ← expandSites policy sites
    return outcome :: rest

def resizeOutcome (policy : Policy) (outcome : SiteResult) : StateM State SiteResult := do
  match outcome.pending? with
  | none => return outcome
  | some (set, factor) =>
    match ← attempt (resize policy set factor) with
    | .ok resized => return { outcome with status := .resized set.factor resized }
    | .error error =>
      modify (·.record .error outcome.site.alloc s!"refactor failed: {error.message}")
      return { outcome with status := .notResized set error }

def resizeOutcomes (policy : Policy) : List SiteResult → StateM State (List SiteResult)
  | [] => pure []
  | outcome :: outcomes => do
    let outcome ← resizeOutcome policy outcome
    let rest ← resizeOutcomes policy outcomes
    return outcome :: rest

def failureMessage : String := "Pass failure"

def conclude (policy : Policy) (kernel : String) (history : List Phase) (outcomes : List SiteResult)
    (orphans : List OpId) : Report :=
  let failed := (policy.orphansFail && !orphans.isEmpty) || outcomes.any fun o => !o.isSuccess
  let phase : Phase := if failed then .failed else .done
  { kernel, phase, history := history ++ [phase], outcomes, orphans,
    diagnostic := if failed then some { kernel, message := failureMessage } else none }

def multibuffer (policy : Policy) : StateM State Report := do
  let found ← survey
  let outcomes ← expandSites policy found.sites
  let start := [Phase.idle, .discovering, .expanding]
  if outcomes.any fun o => o.pending?.isSome then
    let outcomes ← resizeOutcomes policy outcomes
    return conclude policy (← get).kernel.name (start ++ [.resizing]) outcomes found.orphans
  else
    return conclude policy (← get).kernel.name start outcomes found.orphans

end Transform
end SlotRotation
