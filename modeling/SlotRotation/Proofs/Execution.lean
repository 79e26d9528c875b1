import Mathlib.Tactic.Linarith
import SlotRotation.Proofs.Stores

/-! The sequential meaning of a kernel. A run binds values to words and to instances of buffers, keeps the contents
of every instance that was ever made, and reports what it loads and which ops it comes by. -/

namespace SlotRotation

/-- The storage that one execution of an allocation made. -/
structure Instance where
  value : ValueId
  number : Nat
deriving DecidableEq

abbrev Content := List Int64 → Int64

inductive Datum where
  | word (word : Int64)
  | buffer (place : Instance)

inductive Reading where
  | word (word : Int64)
  | content (content : Content)

/-- What a run comes by: an op, a loop with the number of its iterations, or one of these iterations with the
distance of its induction value from the lower bound. -/
inductive Visit where
  | op (id : OpId)
  | loop (id : OpId) (trips : Nat)
  | iteration (id : OpId) (offset : Int)
deriving DecidableEq

structure Machine where
  env : ValueId → Option Datum := fun _ => none
  contents : Instance → Content := fun _ _ => 0
  made : ValueId → Nat := fun _ => 0
  loads : List Int64 := []
  visits : List Visit := []

namespace Machine

variable (m : Machine)

def word? (v : ValueId) : Option Int64 :=
  match m.env v with
  | some (.word n) => some n
  | _ => none

def place? (v : ValueId) : Option Instance :=
  match m.env v with
  | some (.buffer place) => some place
  | _ => none

def read? (v : ValueId) : Option Reading :=
  (m.env v).map fun
    | .word n => .word n
    | .buffer place => .content (m.contents place)

def define (v : ValueId) (d : Datum) : Machine := { m with env := Function.update m.env v (some d) }

def write (place : Instance) (content : Content) : Machine :=
  { m with contents := Function.update m.contents place content }

def writeAll : List (Instance × Content) → Machine → Machine
  | [], m => m
  | (place, content) :: rest, m => writeAll rest (m.write place content)

def visit (v : Visit) : Machine := { m with visits := m.visits ++ [v] }

def make (v : ValueId) (content : Content) : Machine :=
  let place : Instance := ⟨v, m.made v⟩
  { (m.define v (.buffer place)).write place content with made := Function.update m.made v (m.made v + 1) }

def load (result : ValueId) (n : Int64) : Machine := { m.define result (.word n) with loads := m.loads ++ [n] }

end Machine

/-- How many iterations a loop makes while its induction value is below the upper bound; there is no answer if it
never gets there. -/
def trips? (lower upper step : Int) : Option Nat :=
  if upper ≤ lower then some 0
  else if 0 < step then some ((upper - lower + step - 1) / step).toNat
  else none

theorem trips?_eq_some_iff {lower upper step : Int} {n : Nat} :
    trips? lower upper step = some n ↔ (∀ i : Nat, i < n → lower + i * step < upper) ∧ upper ≤ lower + n * step := by
  unfold trips?
  split
  · rename_i hle
    rw [Option.some.injEq]
    constructor
    · rintro rfl
      exact ⟨fun i hi => absurd hi (Nat.not_lt_zero i), by simpa using hle⟩
    · rintro ⟨hbelow, -⟩
      by_contra hne
      have hlt := hbelow 0 (Nat.pos_of_ne_zero fun h => hne h.symm)
      simp only [Nat.cast_zero, zero_mul, add_zero] at hlt
      exact absurd hlt (not_lt.mpr hle)
  · rename_i hlt
    split
    · rename_i hstep
      have hpos : 0 ≤ (upper - lower + step - 1) / step := Int.ediv_nonneg (by linarith) hstep.le
      -- the quotient is the least number of steps that reaches the upper bound
      have hceil : ∀ i : Int, i < (upper - lower + step - 1) / step ↔ lower + i * step < upper := by
        intro i
        rw [← Int.add_one_le_iff, Int.le_ediv_iff_mul_le hstep, add_mul, one_mul]
        constructor <;> intro h <;> linarith
      rw [Option.some.injEq]
      constructor
      · rintro rfl
        refine ⟨fun i hi => (hceil i).mp (by omega), ?_⟩
        have hnot := (hceil ((upper - lower + step - 1) / step)).not.mp (lt_irrefl _)
        rw [Int.toNat_of_nonneg hpos]
        exact not_lt.mp hnot
      · rintro ⟨hbelow, habove⟩
        have hle : ((upper - lower + step - 1) / step) ≤ n := not_lt.mp fun h => not_lt.mpr habove ((hceil n).mp h)
        refine le_antisymm (by omega) (not_lt.mp fun h => ?_)
        have hlast := (hceil _).mpr (hbelow _ h)
        omega
    · rename_i hstep
      refine ⟨fun h => absurd h (by simp), fun ⟨_, habove⟩ => absurd habove ?_⟩
      have hdown : (n : Int) * step ≤ 0 := mul_nonpos_of_nonneg_of_nonpos (Int.natCast_nonneg n) (not_lt.mp hstep)
      linarith

/-- What a run leaves open: the content of a new buffer, and what computations write to their outputs. -/
structure Semantics where
  blank : Content
  compute : String → List Reading → Nat → Content

namespace Semantics

def slotAt? (slots : List ValueId) (index : Int64) : Option ValueId :=
  if 0 ≤ index then slots[index.toInt.toNat]? else none

variable (sem : Semantics)

def step (m : Machine) : Instr → Option Machine
  | .alloc a => some (m.make a.result sem.blank)
  | .dealloc _ | .barrier | .yield | .ret => some m
  | .constant result value => some (m.define result (.word value))
  | .arith result op lhs rhs => do
    let x ← m.word? lhs
    let y ← m.word? rhs
    let z ← op.fold x y
    return m.define result (.word z)
  | .loop _ => none
  | .load result buffer indices => do
    let place ← m.place? buffer
    let position ← indices.mapM m.word?
    return m.load result (m.contents place position)
  | .store value buffer indices => do
    let n ← m.word? value
    let place ← m.place? buffer
    let position ← indices.mapM m.word?
    return m.write place (Function.update (m.contents place) position n)
  | .fill buffer value => do
    let place ← m.place? buffer
    let n ← m.word? value
    return m.write place fun _ => n
  | .copy source target => do
    let place ← m.place? source
    let other ← m.place? target
    return m.write other (m.contents place)
  | .compute name inputs outputs => do
    let readings ← (inputs ++ outputs).mapM m.read?
    let places ← outputs.mapM m.place?
    return m.writeAll (places.mapIdx fun j place => (place, sem.compute name readings j))
  | .selectSlot result slots index => do
    let n ← m.word? index
    let slot ← slotAt? slots n
    let place ← m.place? slot
    return m.define result (.buffer place)

def iterate (body : Machine → Option Machine) (enter : Nat → Machine → Machine) :
    (n i : Nat) → Machine → Option Machine
  | 0, _, m => some m
  | n + 1, i, m => do
    let m ← body (enter i m)
    iterate body enter n (i + 1) m

def enter (id : OpId) (l : Loop) (lower step : Int64) (i : Nat) (m : Machine) : Machine :=
  (m.visit (.iteration id (i * step.toInt))).define l.induction (.word (.ofInt (lower.toInt + i * step.toInt)))

def exec : Forest → Machine → Option Machine
  | .nil, m => some m
  | .op id i rest, m => do
    let m ← sem.step (m.visit (.op id)) i
    exec rest m
  | .loop id l body rest, m => do
    let lower ← m.word? l.lower
    let upper ← m.word? l.upper
    let step ← m.word? l.step
    let trips ← trips? lower.toInt upper.toInt step.toInt
    let m ← iterate (exec body) (enter id l lower step) trips 0 (m.visit (.loop id trips))
    exec rest m

end Semantics
end SlotRotation
