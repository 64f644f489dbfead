/-!
# SwapSearch — failures

A computation of this library can end early in two ways.

* A `Rejection` reports malformed input: a list that is no permutation, a vector
  of the wrong length, settings out of range, an unreadable instance. It is a
  regular answer, and the state it was asked of stays as it was.
* A `Breach` says that a precondition of the library itself is broken: an index
  outside its table, a 64-bit overflow, an empty range to draw from. Nothing
  sensible follows it.

Both are causes; their wording stands in one function each.
-/

namespace SwapSearch

/-- Why a list of indices is not a bijection. -/
inductive PermutationDefect where
  | outOfRange (value : Nat)
  | repeated (value : Nat)
  deriving DecidableEq, Repr

/-- Which setting is out of range. -/
inductive SettingDefect where
  | stagnationAfterZero
  | stagnationRangeInverted
  | tenureRangeInverted
  | temperatureNotPositive
  | jumpNotFinite
  | populationTooSmall
  | tournamentEmpty
  | mutationFrequencyZero
  | mutationGrowthZero
  | mutationStrengthOutside
  | eliteCapacityZero
  | leafCapacityZero
  | snapshotPeriodZero
  | timeLimitZero
  | targetNotFinite
  deriving DecidableEq, Repr

/-- Why a text or a pair of matrices is not an assignment instance. -/
inductive InstanceDefect where
  | matrixLength (found expected : Nat)
  | empty
  | badSize (token : String)
  | badEntry (token : String)
  | entryCount (expected found : Nat)
  | noRows
  | raggedRows (width : Nat)
  | rowCount (rows : Nat)
  deriving DecidableEq, Repr

/-- Malformed input. -/
inductive Rejection where
  | notAPermutation (length : Nat) (defect : PermutationDefect)
  | dimensionMismatch (expected found : Nat)
  | sizeMismatch (expected found : Nat)
  | nonFiniteObjective
  | unsupportedDimensions (found : Nat)
  | noObjectives
  | invalidSettings (defect : SettingDefect)
  | malformedInstance (defect : InstanceDefect)
  deriving DecidableEq, Repr

/-- A broken precondition. -/
inductive Breach where
  /-- An integer left its 64-bit range. -/
  | overflow
  /-- An index lies outside its table. -/
  | outOfBounds
  /-- The pair of positions is no swap, because both are the same. -/
  | equalPositions
  | divisionByZero
  /-- The range to draw from is empty or has a non-finite end or width. -/
  | emptyRange
  /-- A table would not fit into the address space. -/
  | capacity
  /-- An operator built a list that is no permutation. -/
  | brokenBijection
  | archiveDimensions
  | leafCapacity
  | eliteCapacity
  | unequalParents
  | cutPoints
  | emptyParents
  | emptyObjectives
  | weightCount
  | solutionSize
  | emptyPool
  | loneParent
  deriving DecidableEq, Repr

/-- How a computation over both kinds of input can fail. -/
inductive Failure where
  | rejected (cause : Rejection)
  | broken (cause : Breach)
  deriving DecidableEq, Repr

instance : MonadLift (Except Rejection) (Except Failure) where
  monadLift x := x.mapError .rejected

instance : MonadLift (Except Breach) (Except Failure) where
  monadLift x := x.mapError .broken

-- ---------------------------------------------------------------------------
-- Wording
-- ---------------------------------------------------------------------------

def PermutationDefect.message : PermutationDefect → String
  | .outOfRange value => s!"value {value} out of range"
  | .repeated value => s!"value {value} repeated"

def SettingDefect.message : SettingDefect → String
  | .stagnationAfterZero => "stagnation_after must be at least 1"
  | .stagnationRangeInverted => "min_stagnation_magnitude exceeds max_stagnation_magnitude"
  | .tenureRangeInverted => "min_tabu_tenure exceeds max_tabu_tenure"
  | .temperatureNotPositive => "min_temperature must be positive"
  | .jumpNotFinite => "jump_magnitude must be finite"
  | .populationTooSmall => "population_size must be at least 2"
  | .tournamentEmpty => "tournament_size must be at least 1"
  | .mutationFrequencyZero => "mutation_frequency must be at least 1"
  | .mutationGrowthZero => "mutation_strength_growth must be at least 1"
  | .mutationStrengthOutside => "mutation_strength_min must be in [0, 1]"
  | .eliteCapacityZero => "elite_capacity must be at least 1"
  | .leafCapacityZero => "archive_leaf_capacity must be at least 1"
  | .snapshotPeriodZero => "snapshot_every must be positive or None"
  | .timeLimitZero => "time_limit_ms must be positive or None"
  | .targetNotFinite => "target must be finite"

def InstanceDefect.message : InstanceDefect → String
  | .matrixLength found expected => s!"matrix has {found} entries, expected {expected}"
  | .empty => "empty instance"
  | .badSize token => "invalid size `" ++ token ++ "`"
  | .badEntry token => "invalid matrix entry `" ++ token ++ "`"
  | .entryCount expected found => s!"expected {expected} matrix entries, found {found}"
  | .noRows => "no matrix rows"
  | .raggedRows width => s!"every row must have {width} entries"
  | .rowCount rows =>
    s!"{rows} rows do not form a distance matrix followed by flow matrices"

def Rejection.message : Rejection → String
  | .notAPermutation length defect => s!"not a permutation of 0..{length}: {defect.message}"
  | .dimensionMismatch expected found =>
    s!"objective vector has {found} dimensions, expected {expected}"
  | .sizeMismatch expected found =>
    s!"objective expects permutations of size {found}, expected {expected}"
  | .nonFiniteObjective => "objective vector contains a non-finite value"
  | .unsupportedDimensions found =>
    s!"{found} objectives requested, between 1 and 64 are supported"
  | .noObjectives => "at least one objective is required"
  | .invalidSettings defect => s!"invalid configuration: {defect.message}"
  | .malformedInstance defect => s!"parse error: {defect.message}"

/-- The wording of the preconditions that are stated as such; faults of arithmetic and of
indexing have none. -/
def Breach.message? : Breach → Option String
  | .archiveDimensions => some "archive supports 1 to 64 objectives"
  | .leafCapacity => some "leaf capacity must be at least 1"
  | .eliteCapacity => some "elite capacity must be at least 1"
  | .unequalParents => some "parents must have equal length"
  | .cutPoints => some "cut points must satisfy cut1 <= cut2 < n"
  | .emptyParents => some "parents must not be empty"
  | .emptyObjectives => some "at least one objective is required"
  | .weightCount => some "one weight per objective is required"
  | .solutionSize => some "solution size must match the objective"
  | .emptyPool => some "cannot select from an empty population"
  | .loneParent => some "two parents need at least two members"
  | .overflow | .outOfBounds | .equalPositions | .divisionByZero | .emptyRange | .capacity
  | .brokenBijection => none

end SwapSearch
