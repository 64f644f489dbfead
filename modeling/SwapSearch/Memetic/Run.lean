import SwapSearch.Memetic.Watch
import SwapSearch.Pareto.Archive
import SwapSearch.Population.Crossover
import SwapSearch.Population.Elites
import SwapSearch.Population.Mutation
import SwapSearch.Population.Tournament
import SwapSearch.Random.Sample
import SwapSearch.Tabu.Search
import SwapSearch.WeightedSum

/-!
# SwapSearch — a memetic run and its steps

A run breeds a population. Every member has been through a local search on a random
weighted sum of the objectives, and every result of a local search is offered to the
Pareto archive.

* *Seeding* draws random solutions, evaluates them in one batch and improves them one
  by one. A member that a local search already found stays as it was drawn.
* One *iteration* makes a child of two parents chosen by tournament and improves it.
  The child takes the place of the worst member, unless the population is stale.
* The population is *stale* after a number of children in a row none of which beat
  the best member. Then a share of it is *mutated*, a share that grows with each
  round; when the rounds are used up it is *reseeded* from the elite set instead.

The fitness of a member is the mean of its vector, and the best member by fitness is
remembered. A run stops when its best fitness reaches the target, when the budget is
exhausted, or when the deadline has passed.

Three lists, newest first, say what happened: `journal` lists the events,
`consulted` the solutions at which the objectives were evaluated in full, and
`improved` the local searches with what became of them.
-/

namespace SwapSearch.Memetic

/-- Why a run ended. -/
inductive StopReason where
  | budgetExhausted
  | targetReached
  | timeLimit
  deriving DecidableEq, Repr

/-- What a run reports of itself. -/
inductive Event (α : Type) where
  | started (budget size objectives population : Nat)
  | newBest (fitness : α) (evaluations : Nat)
  | mutating (round count length : Nat)
  | reseeding (count : Nat)
  | stagnationJump (strength : Nat)
  | finished (evaluations iterations : Nat) (best : α) (archived : Nat) (reason : StopReason)
  deriving Repr

/-- A local search: its start, its outcome, and the member made of the outcome. -/
structure Improvement (α : Type) where
  start : Permutation
  outcome : Tabu.Outcome α
  member : Member α

structure Run (α ρ : Type) [Scalar α] where
  settings : Settings α
  objectives : List (Objective α)
  size : Nat
  search : Tabu.Search α
  random : ρ
  budget : Budget
  watch : Watch α
  archive : Pareto.Archive α
  elites : EliteSet α
  population : Array (Member α)
  best : Member α
  iterations : Nat
  /-- Children since the last one that beat the best, or since the last mutation. -/
  stale : Nat
  /-- Mutations since the last child that beat the best, or since the last reseeding. -/
  round : Nat
  journal : List (Event α)
  consulted : List (Array Nat)
  improved : List (Improvement α)

/-- Evaluates every objective at a solution. -/
def evaluateAll {α : Type} (objectives : List (Objective α)) (solution : Permutation) :
    Except Breach (List α) :=
  objectives.mapM (·.evaluate solution.values)

namespace Run

variable {α ρ : Type} [Scalar α]

-- ---------------------------------------------------------------------------
-- Bookkeeping
-- ---------------------------------------------------------------------------

def note (run : Run α ρ) (event : Event α) : Run α ρ :=
  { run with journal := event :: run.journal }

/-- Charges the budget and reports it to the watch. -/
def charge (run : Run α ρ) (units : Nat) : Except Breach (Run α ρ) := do
  let budget := run.budget.charge units
  let watch ← Monitor.onCharge run.watch budget
  return { run with budget, watch }

/-- The reason to stop, if there is one. The target comes first, the clock last. -/
def stopReason (run : Run α ρ) : Option StopReason × Run α ρ :=
  if run.watch.targetReached then (some .targetReached, run)
  else if run.budget.isExhausted then (some .budgetExhausted, run)
  else
    let (passed, watch) := run.watch.deadlinePassed
    (if passed then some .timeLimit else none, { run with watch })

/-- Remembers a member that is fitter than the best. -/
def updateBest (run : Run α ρ) (m : Member α) : Run α ρ :=
  if run.best.fitness < m.fitness then
    { run with best := m, watch := run.watch.raise m.fitness }.note
      (.newBest m.fitness run.budget.used)
  else run

/-- Offers a member to the elite set. -/
def offerElite (run : Run α ρ) (m : Member α) : Run α ρ :=
  { run with elites := (run.elites.offer m).2 }

/-- Evaluates one solution in full, which costs one unit. -/
def evaluate (run : Run α ρ) (solution : Permutation) :
    Except Breach (List α × Run α ρ) := do
  let vector ← evaluateAll run.objectives solution
  let run ← { run with consulted := solution.values :: run.consulted }.charge 1
  return (vector, run)

section Random

variable [RandomSource ρ]

-- ---------------------------------------------------------------------------
-- Improving
-- ---------------------------------------------------------------------------

/-- Draws `k` exponentially distributed scalars. -/
def drawExponentials : (k : Nat) → ρ → List α × ρ
  | 0, r => ([], r)
  | k + 1, r =>
    let (u, r) := Random.unit r
    let (rest, r) := drawExponentials k r
    (-(Scalar.log (1 - u)) :: rest, r)

/-- Scales positive weights to the sum one. Weights without a positive sum become equal. -/
def normalize (weights : List α) : List α :=
  let total := Scalar.sum weights
  if 0 < total then weights.map (· / total)
  else List.replicate weights.length (1 / (weights.length : α))

/-- Draws one weight for each objective, uniformly among those that sum to one. A single
objective has weight one, and nothing is drawn. -/
def drawWeights (run : Run α ρ) : List α × Run α ρ :=
  if run.objectives.length = 1 then ([1], run)
  else
    let (weights, random) := drawExponentials run.objectives.length run.random
    (normalize weights, { run with random })

/-- The stagnation jumps of a local search, newest first. -/
def jumpEvents (bursts : List (Tabu.Burst α)) : List (Event α) :=
  (bursts.filter (·.jumped)).map fun b => .stagnationJump b.strength

/-- A local search on a random weighted sum, from a solution with its vector. -/
def searchFrom (run : Run α ρ) (solution : Permutation) (vector : List α) :
    Except Breach (Tabu.Outcome α × Run α ρ) := do
  let (weights, run) := run.drawWeights
  let landscape ← WeightedSum.ofObjectives run.objectives weights
  let context : Tabu.Context (WeightedSum α) (Watch α) ρ :=
    { landscape, budget := run.budget, monitor := run.watch, random := run.random }
  let (outcome, context) ← run.search.improve solution (landscape.combine vector)
    run.settings.improvementDepth context
  return (outcome, { run with
    budget := context.budget
    watch := context.monitor
    random := context.random
    journal := jumpEvents outcome.bursts ++ run.journal
    consulted := context.landscape.consulted ++ run.consulted })

/-- The vector of what a local search returned. With several objectives it has to be evaluated
anew. -/
def vectorOf (run : Run α ρ) (outcome : Tabu.Outcome α) : Except Breach (List α × Run α ρ) :=
  if run.objectives.length = 1 then return ([outcome.value], run)
  else run.evaluate outcome.solution

/-- Improves a solution by a local search and offers the result to the archive. -/
def improve (run : Run α ρ) (solution : Permutation) (vector : List α) :
    Except Failure (Member α × Run α ρ) := do
  if vector.any (!Scalar.isFinite ·) then .error (.rejected .nonFiniteObjective)
  let (outcome, run) ← run.searchFrom solution vector
  let (vector, run) ← run.vectorOf outcome
  let (_, archive) ← run.archive.insert outcome.solution vector
  let m := Member.ofVector outcome.solution vector
  return (m, { run with archive, improved := ⟨solution, outcome, m⟩ :: run.improved })

-- ---------------------------------------------------------------------------
-- Seeding
-- ---------------------------------------------------------------------------

/-- Draws `k` random permutations of `n` items. -/
def drawPermutations (n : Nat) : (k : Nat) → ρ → List Permutation × ρ
  | 0, r => ([], r)
  | k + 1, r =>
    let (p, r) := Permutation.random n r
    let (rest, r) := drawPermutations n k r
    (p :: rest, r)

/-- Improves a seed and adds it to the population: as improved, or as drawn if the population
has the improved solution already. -/
def admitSeed (run : Run α ρ) (start : Member α) : Except Failure (Run α ρ) := do
  let (improved, run) ← run.improve start.solution start.vector
  let run := (run.updateBest improved).offerElite improved
  let kept := if Member.listed run.population improved.solution then start else improved
  return { run with population := run.population.push kept }

/-- Admits seeds until there is a reason to stop. -/
def admitSeeds : List (Member α) → Run α ρ → Except Failure (Run α ρ)
  | [], run => return run
  | start :: rest, run => do
    let run ← run.admitSeed start
    let (reason, run) := run.stopReason
    if reason.isSome then return run
    admitSeeds rest run

/-- Fills the population. The whole batch is charged before the first seed is improved. -/
def seed (run : Run α ρ) : Except Failure (Run α ρ) := do
  let (seeds, random) := drawPermutations run.size run.settings.populationSize run.random
  let vectors ← seeds.mapM (m := Except Breach) (evaluateAll run.objectives)
  let run ← { run with
    random
    consulted := (seeds.map Permutation.values).reverse ++ run.consulted }.charge seeds.length
  run.admitSeeds (List.zipWith Member.ofVector seeds vectors)

-- ---------------------------------------------------------------------------
-- One iteration
-- ---------------------------------------------------------------------------

/-- The member at an index. -/
def memberAt (run : Run α ρ) (i : Nat) : Except Breach (Member α) :=
  match run.population[i]? with
  | some m => .ok m
  | none => .error .outOfBounds

/-- A child of two parents chosen by tournament. -/
def breed (run : Run α ρ) : Except Breach (Permutation × Run α ρ) := do
  let fitness := run.population.map (·.fitness)
  let ((i, j), random) ← Tournament.parents fitness run.settings.tournamentSize run.random
  let first ← run.memberAt i
  let second ← run.memberAt j
  match run.settings.crossover with
  | .partiallyMatched =>
    let (child, random) := Crossover.randomMatched first.solution second.solution random
    return (← child, { run with random })
  | .uniform =>
    let (child, random) ← Crossover.uniform first.solution second.solution random
    return (child, { run with random })

/-- Puts a child in the place of the worst member, unless its solution is in the population. -/
def replaceWorst (run : Run α ρ) (child : Member α) : Run α ρ :=
  if Member.listed run.population child.solution then run
  else
    match Member.lowest? run.population with
    | some i => { run with population := run.population.setIfInBounds i child }
    | none => run

/-- The share of the population that a round mutates: it grows linearly from the least share to
the whole. -/
def mutationShare (settings : Settings α) (round : Nat) : α :=
  let least := settings.mutationStrength
  least + (1 - least) * (round : α) / (settings.mutationGrowth : α)

/-- The number of members out of `size` that a round mutates, at least one. -/
def mutationCount (settings : Settings α) (size round : Nat) : Nat :=
  let count := Scalar.toWord (Scalar.round ((size : α) * mutationShare settings round))
  min (max 1 count) size

/-- Mutates and improves the member at an index. -/
def mutateMember (run : Run α ρ) (length i : Nat) : Except Failure (Run α ρ) := do
  let m ← run.memberAt i
  let (solution, random) := Mutation.chain length m.solution run.random
  let (vector, run) ← { run with random }.evaluate solution
  let (mutant, run) ← run.improve solution vector
  let run := run.updateBest mutant
  return { run with population := run.population.setIfInBounds i mutant }

/-- Mutates members until the budget is exhausted. -/
def mutateMembers (length : Nat) : List Nat → Run α ρ → Except Failure (Run α ρ)
  | [], run => return run
  | i :: rest, run => do
    if run.budget.isExhausted then return run
    mutateMembers length rest (← run.mutateMember length i)

/-- Mutates a share of the population that depends on the round. -/
def mutate (run : Run α ρ) : Except Failure (Run α ρ) := do
  let size := run.population.size
  let count := mutationCount run.settings size run.round
  let length := Tabu.Settings.jumpLength run.settings.walk.jump run.size
  let run := run.note (.mutating run.round count length)
  let (picked, random) := Random.sample size count run.random
  mutateMembers length picked.toList { run with random }

/-- Puts elites, in random order, in the place of the first members. -/
def reseed (run : Run α ρ) : Run α ρ :=
  let (elites, random) := Random.shuffle run.elites.members run.random
  let taken := elites.take run.population.size
  { run with
    random
    population := taken ++ run.population.drop taken.size }.note (.reseeding taken.size)

/-- Mutates the population, or reseeds it when the rounds are used up. -/
def refresh (run : Run α ρ) : Except Failure (Run α ρ) :=
  if run.settings.mutationGrowth < run.round then return { run.reseed with round := 0 }
  else do
    let run ← run.mutate
    return { run with round := run.round + 1 }

/-- Counts a child that did not beat the best member; one that did starts all counts anew. -/
def countChild (run : Run α ρ) (child : Member α) : Run α ρ :=
  if Scalar.beats child.fitness run.best.fitness then { run with stale := 0, round := 0 }
  else { run with stale := run.stale + 1 }

/-- Makes and improves one child, and renews the population if it is stale. -/
def iterate (run : Run α ρ) : Except Failure (Run α ρ) := do
  let run := { run with iterations := run.iterations + 1 }
  let (solution, run) ← run.breed
  let (vector, run) ← run.evaluate solution
  let (child, run) ← run.improve solution vector
  let run := run.countChild child
  if run.settings.mutationFrequency ≤ run.stale then
    let run ← run.refresh
    return ({ run with stale := 0 }.updateBest child).offerElite child
  else
    return ((run.updateBest child).offerElite child).replaceWorst child

/-- Iterates until there is a reason to stop. Every iteration charges at least one unit, so the
units left bound their number, and once they are used up the budget is exhausted. -/
def evolve : (limit : Nat) → Run α ρ → Except Failure (StopReason × Run α ρ)
  | 0, run =>
    let (reason, run) := run.stopReason
    return (reason.getD .budgetExhausted, run)
  | limit + 1, run => do
    let (reason, run) := run.stopReason
    match reason with
    | some reason => return (reason, run)
    | none => evolve limit (← run.iterate)

end Random

end Run

end SwapSearch.Memetic
