import SwapSearch.Json.Reader
import SwapSearch.Json.Record
import SwapSearch.Memetic.Run

/-!
# SwapSearch — stored values

How the values of a search are stored as JSON.

* Words are plain unsigned integers, scalars any finite number.
* An enumeration is a string with the name of the case. It may also stand as an
  object that maps the name to null.
* A permutation is the list of its items, and is checked.
* Everything else is a record. Settings are read as they are and not validated.
-/

namespace SwapSearch.Stored

open Json

-- ---------------------------------------------------------------------------
-- Plain values
-- ---------------------------------------------------------------------------

def word? : Value → Option Nat
  | .number n => n.word?
  | _ => none

def bool? : Value → Option Bool
  | .bool b => some b
  | _ => none

/-- A list of values of one kind. -/
def list? {β : Type} (read : Value → Option β) : Value → Option (List β)
  | .array items => items.mapM read
  | _ => none

/-- The name of a case. -/
def caseName? : Value → Option String
  | .string name => name
  | .object [(name, .null)] => name
  | _ => none

/-- One of the named cases. -/
def case? {β : Type} (cases : List (String × β)) (value : Value) : Option β :=
  (caseName? value).bind fun name => cases.lookup name

def permutation? (value : Value) : Option Permutation := do
  let items ← list? word? value
  (Permutation.ofArray? items.toArray).toOption

-- ---------------------------------------------------------------------------
-- Cases
-- ---------------------------------------------------------------------------

def stopReason? : Value → Option Memetic.StopReason :=
  case? [("BudgetExhausted", .budgetExhausted), ("TargetReached", .targetReached),
    ("TimeLimit", .timeLimit)]

def perturbation? : Value → Option Tabu.Perturbation :=
  case? [("Disabled", .disabled), ("Normal", .normal), ("Annealed", .annealed)]

def crossover? : Value → Option Memetic.CrossoverKind :=
  case? [("Uniform", .uniform), ("PartiallyMatched", .partiallyMatched)]

-- ---------------------------------------------------------------------------
-- Records
-- ---------------------------------------------------------------------------

variable {α : Type} [Scalar α]

def scalar? : Value → Option α
  | .number n => n.scalar?
  | _ => none

def entry? (value : Value) : Option (Pareto.Entry α) := do
  let r ← Record.ofValue? ["solution", "objectives"] value
  return {
    solution := ← r.required "solution" permutation?
    vector := ← r.required "objectives" (list? scalar?) }

def snapshot? (value : Value) : Option (Memetic.Snapshot α) := do
  let r ← Record.ofValue? ["best_value", "evaluations"] value
  return {
    bestValue := ← r.required "best_value" scalar?
    evaluations := ← r.required "evaluations" word? }

/-- The fields of the settings of a tabu walk. -/
def walkFields : List String :=
  ["perturbation", "jump_magnitude", "stagnation_after", "min_stagnation_magnitude",
    "max_stagnation_magnitude", "min_tabu_tenure", "max_tabu_tenure",
    "min_directed_perturbation", "min_temperature"]

def walkSettings? (value : Value) : Option (Tabu.Settings α) := do
  let r ← Record.ofValue? walkFields value
  return {
    perturbation := ← r.required "perturbation" perturbation?
    jump := ← r.required "jump_magnitude" scalar?
    stagnationAfter := ← r.required "stagnation_after" word?
    minStagnation := ← r.required "min_stagnation_magnitude" scalar?
    maxStagnation := ← r.required "max_stagnation_magnitude" scalar?
    minTenure := ← r.required "min_tabu_tenure" scalar?
    maxTenure := ← r.required "max_tabu_tenure" scalar?
    minDirected := ← r.required "min_directed_perturbation" scalar?
    minTemperature := ← r.required "min_temperature" scalar? }

/-- The fields of the settings of a memetic run. -/
def settingsFields : List String :=
  ["population_size", "improvement_depth", "tournament_size", "crossover", "mutation_frequency",
    "mutation_strength_min", "mutation_strength_growth", "elite_capacity",
    "archive_leaf_capacity", "target", "snapshot_every", "time_limit_ms", "seed", "parallel",
    "tabu"]

def settings? (value : Value) : Option (Memetic.Settings α) := do
  let r ← Record.ofValue? settingsFields value
  return {
    populationSize := ← r.required "population_size" word?
    improvementDepth := ← r.required "improvement_depth" word?
    tournamentSize := ← r.required "tournament_size" word?
    crossover := ← r.required "crossover" crossover?
    mutationFrequency := ← r.required "mutation_frequency" word?
    mutationStrength := ← r.required "mutation_strength_min" scalar?
    mutationGrowth := ← r.required "mutation_strength_growth" word?
    eliteCapacity := ← r.required "elite_capacity" word?
    bucketCapacity := ← r.required "archive_leaf_capacity" word?
    target := ← r.optional "target" scalar?
    snapshotEvery := ← r.optional "snapshot_every" word?
    timeLimit := ← r.optional "time_limit_ms" word?
    seed := ← r.optional "seed" word?
    parallel := ← r.required "parallel" bool?
    walk := ← r.required "tabu" walkSettings? }

/-- Reads a text as a stored value. -/
def ofText? {β : Type} (read : Value → Option β) (text : String) : Option β :=
  (Value.ofText? text).bind read

end SwapSearch.Stored
