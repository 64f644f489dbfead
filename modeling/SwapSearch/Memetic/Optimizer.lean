import SwapSearch.Memetic.Run
import SwapSearch.Random.ChaCha

/-!
# SwapSearch — the optimizer

`optimize` runs the memetic search on one or more objectives of one size, within a
budget, and reports how the run ended. Malformed objectives and settings are rejected
before anything is drawn.

A run is a function of its random source and its clock. `optimizeSeeded` takes the
source from the seed that the settings name.
-/

namespace SwapSearch.Memetic

variable {α ρ : Type} [Scalar α]

/-- How a run ended: the reason, and the run as it was then. -/
structure Report (α ρ : Type) [Scalar α] where
  reason : StopReason
  run : Run α ρ

namespace Report

/-- The best solution by fitness. -/
def best (r : Report α ρ) : Permutation := r.run.best.solution

/-- The fitness of the best solution. -/
def bestValue (r : Report α ρ) : α := r.run.best.fitness

/-- The vector of the best solution. -/
def bestVector (r : Report α ρ) : List α := r.run.best.vector

/-- The non-dominated solutions among all that local searches returned. -/
def archive (r : Report α ρ) : Pareto.Archive α := r.run.archive

/-- Units of the budget used. The last charge may have overdrawn it. -/
def evaluations (r : Report α ρ) : Nat := r.run.budget.used

/-- Iterations after seeding. -/
def iterations (r : Report α ρ) : Nat := r.run.iterations

def snapshots (r : Report α ρ) : List (Snapshot α) := r.run.watch.recorder.snapshots

/-- The mean of the best fitness over the evaluations. -/
def anytimeValue (r : Report α ρ) : Option α := Memetic.anytimeValue r.snapshots

/-- What happened, in order. -/
def events (r : Report α ρ) : List (Event α) := r.run.journal.reverse

end Report

/-- The common size of 1 to 64 objectives, which must be positive. -/
def commonSize (objectives : List (Objective α)) : Except Rejection Nat :=
  match objectives with
  | [] => .error .noObjectives
  | first :: _ =>
    if 64 < objectives.length then .error (.unsupportedDimensions objectives.length)
    else if first.size = 0 then .error (.sizeMismatch 1 0)
    else
      match objectives.find? (·.size ≠ first.size) with
      | some other => .error (.sizeMismatch first.size other.size)
      | none => .ok first.size

/-- The local search of a run. With a single objective it knows the target. -/
def localSearch (settings : Settings α) (dimensions : Nat) : Except Rejection (Tabu.Search α) := do
  let search ← Tabu.Search.ofSettings settings.walk
  match settings.target with
  | some target => return if dimensions = 1 then search.withTarget target else search
  | none => return search

/-- Stands in for the best member until there is one: an identity, if it fits into memory, that
everything beats. -/
def noMember (size dimensions : Nat) : Except Breach (Member α) := do
  return {
    solution := ← Permutation.identity? size
    vector := List.replicate dimensions Scalar.negInf
    fitness := Scalar.negInf }

/-- The run before seeding. A member takes 56 bytes of memory. -/
def Run.begin (objectives : List (Objective α)) (evaluations : Nat) (settings : Settings α)
    (clock : Clock) (random : ρ) : Except Failure (Run α ρ) := do
  let size ← commonSize objectives
  settings.validate
  let dimensions := objectives.length
  let search ← localSearch settings dimensions
  let archive ← Pareto.Archive.empty dimensions settings.bucketCapacity
  let elites ← EliteSet.empty settings.eliteCapacity
  Word.reserve settings.populationSize 56
  let best ← noMember size dimensions
  return {
    settings, objectives, size, search, random
    budget := .grant evaluations
    watch := .begin settings dimensions clock
    archive, elites, best
    population := #[]
    iterations := 0
    stale := 0
    round := 0
    journal := [.started evaluations size dimensions settings.populationSize]
    consulted := []
    improved := [] }

/-- The last entry of the journal. -/
def Run.closing (run : Run α ρ) (reason : StopReason) : Event α :=
  .finished run.budget.used run.iterations run.best.fitness run.archive.size reason

/-- Searches for solutions that are good in all objectives, within a budget of `evaluations`
units. -/
def optimize [RandomSource ρ] (objectives : List (Objective α)) (evaluations : Nat)
    (settings : Settings α) (clock : Clock) (random : ρ) : Except Failure (Report α ρ) := do
  let run ← Run.begin objectives evaluations settings clock random
  let run ← run.seed
  let (reason, run) ← run.evolve run.budget.remaining
  return { reason, run := run.note (run.closing reason) }

/-- Searches with the random source of the settings' seed, or of `fallback` if they name none. -/
def optimizeSeeded (objectives : List (Objective α)) (evaluations : Nat) (settings : Settings α)
    (clock : Clock) (fallback : Nat) : Except Failure (Report α Random.ChaCha) :=
  optimize objectives evaluations settings clock
    (.ofSeed (UInt64.ofNat (settings.seed.getD fallback)))

end SwapSearch.Memetic
