import SwapSearch.Pareto.Archive
import SwapSearch.Tabu.Settings

/-!
# SwapSearch — settings of a memetic run

A memetic run breeds a population and improves every child by a tabu walk. Its
settings embed those of the walk, and are valid only together with them.
-/

namespace SwapSearch.Memetic

/-- How two parents make a child. -/
inductive CrossoverKind where
  | uniform
  | partiallyMatched
  deriving DecidableEq, Repr

structure Settings (α : Type) where
  populationSize : Nat
  /-- Iterations of each local search. -/
  improvementDepth : Nat
  /-- Draws of one tournament. -/
  tournamentSize : Nat
  crossover : CrossoverKind
  /-- Children in a row without a new best before the population is mutated. -/
  mutationFrequency : Nat
  /-- Share of the population that the first mutation after a new best changes. -/
  mutationStrength : α
  /-- Mutations without a new best until the share has grown to the whole population. -/
  mutationGrowth : Nat
  eliteCapacity : Nat
  bucketCapacity : Nat
  /-- The run stops once its best fitness reaches this. -/
  target : Option α
  /-- Units of the budget between two snapshots. -/
  snapshotEvery : Option Nat
  /-- Milliseconds after which the run stops. -/
  timeLimit : Option Nat
  seed : Option Nat
  /-- Whether the first generation is evaluated in parallel, which changes no result. -/
  parallel : Bool
  walk : Tabu.Settings α

namespace Settings

variable {α : Type} [Scalar α]

def default : Settings α where
  populationSize := 10
  improvementDepth := 10000
  tournamentSize := 4
  crossover := .partiallyMatched
  mutationFrequency := 5
  mutationStrength := 0.5
  mutationGrowth := 5
  eliteCapacity := 100
  bucketCapacity := Pareto.Archive.defaultCapacity
  target := none
  snapshotEvery := none
  timeLimit := none
  seed := none
  parallel := false
  walk := .default

/-- Settings found by tuning on assignment instances. -/
def tuned : Settings α :=
  { default with
    populationSize := 6
    improvementDepth := 719
    tournamentSize := 6
    mutationFrequency := 12
    mutationStrength := 0.6967
    mutationGrowth := 13
    walk := Tabu.Settings.default
      |>.withJump 0.3327
      |>.withStagnation 322 1.6775 9.7211
      |>.withTenure 0.3089 1.8264
      |>.withMinDirected 0.0674 }

instance : Inhabited (Settings α) := ⟨default⟩

/-- Sets when the population is mutated and how strongly, the least share moved into `[0, 1]`. -/
def withMutation (s : Settings α) (frequency : Nat) (strength : α) (growth : Nat) : Settings α :=
  { s with
    mutationFrequency := frequency
    mutationStrength := Scalar.clamp 0 1 strength
    mutationGrowth := growth }

/-- The first setting that is out of range, in the order of the checks; those of the walk come
last. -/
def defect? (s : Settings α) : Option SettingDefect :=
  if s.populationSize < 2 then some .populationTooSmall
  else if s.tournamentSize = 0 then some .tournamentEmpty
  else if s.mutationFrequency = 0 then some .mutationFrequencyZero
  else if s.mutationGrowth = 0 then some .mutationGrowthZero
  else if !(0 ≤ s.mutationStrength && s.mutationStrength ≤ 1) then some .mutationStrengthOutside
  else if s.eliteCapacity = 0 then some .eliteCapacityZero
  else if s.bucketCapacity = 0 then some .leafCapacityZero
  else if s.snapshotEvery = some 0 then some .snapshotPeriodZero
  else if s.timeLimit = some 0 then some .timeLimitZero
  else if s.target.any (!Scalar.isFinite ·) then some .targetNotFinite
  else s.walk.defect?

def validate (s : Settings α) : Except Rejection Unit :=
  match s.defect? with
  | some defect => .error (.invalidSettings defect)
  | none => .ok ()

end Settings

end SwapSearch.Memetic
