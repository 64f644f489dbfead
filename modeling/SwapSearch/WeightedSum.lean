import SwapSearch.Objective

/-!
# SwapSearch — weighted sums

Several objectives of one size are searched at once through a weighted sum of
their values. To let each of them use its own cheap rule, the sum keeps for every
component the value and the gain table of the solution it was last scanned at.
A scan with a hint first moves each component value by the gain of the exchange
made, which the component's table still holds, and then lets the component patch
its table. The first scan fills the cache and ignores any hint.

A single component with weight one is the sum; it is scanned directly and no
cache is kept.
-/

namespace SwapSearch

/-- One summand: an objective, its weight, and its value and gains at the last solution
scanned. -/
structure Summand (α : Type) where
  objective : Objective α
  weight : α
  value : α
  gains : GainTable α

namespace Summand

variable {α : Type} [Scalar α]

/-- Brings one summand to the present solution: with a hint its value moves by the gain of that
exchange, without one it is evaluated. -/
def advance (solution : Array Nat) (hint : Option (Nat × Nat)) (c : Summand α) :
    Except Breach (Summand α) := do
  let value ← match hint with
    | some (i, j) => do
      let gain ← c.gains.gain? i j
      pure (c.value + gain)
    | none => c.objective.evaluate solution
  let gains ← c.objective.scan solution value hint c.gains
  return { c with value, gains }

end Summand

/-- A weighted sum of objectives. `consulted` lists the solutions at which a scan evaluated the
components in full, newest first. -/
structure WeightedSum (α : Type) where
  summands : List (Summand α)
  primed : Bool
  consulted : List (Array Nat)

namespace WeightedSum

variable {α : Type} [Scalar α]

/-- The sum of one or more objectives with one weight each. Its size is that of the first. -/
def ofObjectives (objectives : List (Objective α)) (weights : List α) :
    Except Breach (WeightedSum α) :=
  match objectives with
  | [] => .error .emptyObjectives
  | first :: _ => do
    if objectives.length ≠ weights.length then .error .weightCount
    let table ← GainTable.allocate first.size
    return {
      summands := (objectives.zip weights).map fun (o, w) => ⟨o, w, 0, table⟩
      primed := false
      consulted := [] }

def weights (s : WeightedSum α) : List α := s.summands.map (·.weight)

def size (s : WeightedSum α) : Nat :=
  match s.summands with
  | [] => 0
  | first :: _ => first.objective.size

/-- The weighted sum of a vector of component values. -/
def combine (s : WeightedSum α) (values : List α) : α :=
  Scalar.sum (List.zipWith (· * ·) s.weights values)

/-- The weighted sum of the components' values. -/
def evaluate (s : WeightedSum α) (solution : Array Nat) : Except Breach α := do
  let values ← s.summands.mapM fun c => c.objective.evaluate solution
  return s.combine values

/-- The only component of a sum that has one component, with weight one. -/
def soleComponent? (s : WeightedSum α) : Option (Objective α) :=
  match s.summands with
  | [c] => if c.weight == 1 then some c.objective else none
  | _ => none

/-- The weighted sum of the summands' gains for one pair. -/
def combinedGain (summands : List (Summand α)) (i j : Nat) : Except Breach α := do
  let gains ← summands.mapM fun c => do
    let gain ← c.gains.gain? i j
    return c.weight * gain
  return Scalar.sum gains

/-- Advances every summand, then fills the table with the weighted sums of their gains. -/
def scan (s : WeightedSum α) (solution : Array Nat) (value : α) (lastSwap : Option (Nat × Nat))
    (table : GainTable α) : Except Breach (WeightedSum α × GainTable α) :=
  match s.soleComponent? with
  | some objective => do
    return (s, ← objective.scan solution value lastSwap table)
  | none => do
    let hint := if s.primed then lastSwap else none
    let summands ← s.summands.mapM (Summand.advance solution hint)
    let table ← (swapPairs solution.size).foldlM (fun table (i, j) => do
      table.put? i j (← combinedGain summands i j)) table
    let consulted := if hint.isNone then solution :: s.consulted else s.consulted
    return ({ summands, primed := true, consulted }, table)

instance : Landscape (WeightedSum α) α where
  size := size
  evaluate := evaluate
  scan := scan

end WeightedSum

end SwapSearch
