import SlotRotation.Event.Log

/-! Figures of a run, read off its log, and the time it took, in seconds or milliseconds with their exact
fraction. -/

namespace SlotRotation

structure Span where
  nanoseconds : UInt64 := 0
deriving DecidableEq

namespace Span

def fraction (width n : Nat) : List Char :=
  let digits := Nat.toDigits 10 n
  let padded := List.replicate (width - digits.length) '0' ++ digits
  (padded.reverse.dropWhile (· = '0')).reverse

def decimal (width n : Nat) : String :=
  let unit := Nat.pow 10 width
  let whole := s!"{n / unit}"
  if n % unit = 0 then whole
  else whole ++ "." ++ String.ofList (fraction width (n % unit))

def wholeMilliseconds (span : Span) : Nat := span.nanoseconds.toNat / Nat.pow 10 6

def text (span : Span) : String :=
  let n := span.nanoseconds.toNat
  if Nat.pow 10 9 ≤ n then decimal 9 n ++ "s" else decimal 6 n ++ "ms"

end Span

structure Stats where
  kernelsChanged : Nat := 0
  expansions : Nat := 0
  rebindings : Nat := 0
  guardsAdded : Nat := 0
  regroupings : Nat := 0
  reallocations : Nat := 0
  discards : Nat := 0
  warnings : Nat := 0
  errors : Nat := 0
  time : Span := {}
deriving DecidableEq

namespace Stats

def ofLog (log : Log) : Stats where
  kernelsChanged := log.kernelsAffected
  expansions := log.count .slotsCreated
  rebindings := log.count .useRebound
  guardsAdded := log.count .guardInserted
  regroupings := log.count .slotsRegrouped
  reallocations := log.count .slotsReallocated
  discards := log.count .slotDiscarded
  warnings := log.count .warning
  errors := log.count .error

/-- What is worth telling; a figure of zero is left out. -/
def parts (s : Stats) : List String :=
  let resized := s.regroupings + s.reallocations
  let figures : List (Nat × String) :=
    [(s.kernelsChanged, "functions"), (s.expansions, "allocations expanded"),
      (s.rebindings, "uses rebound"), (s.guardsAdded, "guards"),
      (resized, s!"refactored ({s.regroupings} in place)"), (s.discards, "slots discarded"),
      (s.errors, "errors"), (s.warnings, "warnings")]
  (figures.filter fun figure => 0 < figure.1).map fun (n, text) => s!"{n} {text}"

def summary (s : Stats) : String :=
  let text := if s.parts.isEmpty then "no transformations" else ", ".intercalate s.parts
  if 0 < s.time.wholeMilliseconds then s!"{text} in {s.time.text}" else text

end Stats
end SlotRotation
