import SwapSearch.Scalar
import SwapSearch.Word

/-!
# SwapSearch — snapshots

A *snapshot* is the best value known after a number of evaluations. A `Recorder`
takes one whenever another `every` units of the budget have been used: an
observation at or beyond the next threshold is recorded, and the threshold moves on
to the next multiple above it. While no finite value is known the threshold waits.

`anytimeValue` sums a record up: the mean of the best values, each weighted by the
evaluations since the snapshot before.
-/

namespace SwapSearch.Memetic

structure Snapshot (α : Type) where
  bestValue : α
  evaluations : Nat
  deriving Repr

/-- The record of a run, newest snapshot first. Without a period nothing is recorded. -/
structure Recorder (α : Type) where
  every : Option Nat
  nextAt : Nat
  taken : List (Snapshot α)

namespace Recorder

variable {α : Type} [Scalar α]

/-- An empty record, whose first threshold is one period. -/
def ofPeriod (every : Option Nat) : Recorder α :=
  { every, nextAt := every.getD Word.largest, taken := [] }

/-- The snapshots in the order they were taken. -/
def snapshots (r : Recorder α) : List (Snapshot α) := r.taken.reverse

/-- The smallest multiple of the period above `evaluations`. The multiple stays at the largest
word, but its factor has to be a word. -/
def thresholdAbove (every evaluations : Nat) : Except Breach Nat := do
  if every = 0 then .error .divisionByZero
  let factor ← Word.checked (evaluations / every + 1)
  return Word.saturated (factor * every)

/-- An observation is to be recorded: usage has reached the threshold, and a finite value is
known. -/
def isDue (r : Recorder α) (evaluations : Nat) (bestValue : α) : Bool :=
  r.every.isSome && r.nextAt ≤ evaluations && Scalar.isFinite bestValue

/-- Takes a snapshot. -/
def take (r : Recorder α) (evaluations : Nat) (bestValue : α) : Recorder α :=
  { r with taken := ⟨bestValue, evaluations⟩ :: r.taken }

/-- Moves the threshold beyond the usage. -/
def advance (r : Recorder α) (evaluations : Nat) : Except Breach (Recorder α) :=
  match r.every with
  | none => .ok r
  | some every => do
    let nextAt ← thresholdAbove every evaluations
    return { r with nextAt }

/-- Observes the usage of the budget: takes a snapshot if one is due, then moves the threshold
on. -/
def observe (r : Recorder α) (evaluations : Nat) (bestValue : α) : Except Breach (Recorder α) :=
  if r.isDue evaluations bestValue then (r.take evaluations bestValue).advance evaluations
  else .ok r

end Recorder

variable {α : Type} [Scalar α]

/-- The sum of the best values, each times the evaluations since the one before. -/
def weightedSum : (previous : Nat) → (total : α) → List (Snapshot α) → α
  | _, total, [] => total
  | previous, total, s :: rest =>
    weightedSum s.evaluations (total + s.bestValue * ((s.evaluations - previous : Nat) : α)) rest

/-- The mean of the best values over the evaluations. There is none before the first
evaluation. -/
def anytimeValue (snapshots : List (Snapshot α)) : Option α :=
  match snapshots.getLast? with
  | none => none
  | some last =>
    if last.evaluations = 0 then none
    else some (weightedSum 0 0 snapshots / (last.evaluations : α))

end SwapSearch.Memetic
