import SwapSearch.GainTable

/-!
# SwapSearch — objectives

An *objective* gives every solution of its size a value; larger is better. It
also keeps a gain table up to date: after a scan, the gain of `(i, j)` is meant to
be the value of the solution with `i` and `j` exchanged, minus the value passed
in.

A scan may be told which exchange led from the solution of the scan before to the
present one. An objective with a cheap rule for what such an exchange changes
patches the table; without the hint it fills the table anew.

* `Objective` — a pure objective: evaluation and scan are functions.
* `Objective.ofEvaluation` — an objective known only by its values, whose scan
  evaluates every neighbour.
* `Landscape` — what a walk needs: a scan that may also update a cache of its own.
-/

namespace SwapSearch

/-- Fills or patches the gain table of a solution with a value, given the exchange that led
here, if it is known. -/
abbrev Scan (α : Type) :=
  Array Nat → α → Option (Nat × Nat) → GainTable α → Except Breach (GainTable α)

/-- An objective over solutions of `size` positions. -/
structure Objective (α : Type) where
  size : Nat
  evaluate : Array Nat → Except Breach α
  scan : Scan α

namespace Objective

variable {α : Type} [Scalar α]

/-- Evaluates every neighbour of the solution in turn. -/
def fullScan (evaluate : Array Nat → Except Breach α) : Scan α :=
  fun solution value _ table =>
    (swapPairs solution.size).foldlM (fun table (i, j) => do
      let neighbour ← evaluate (solution.swapIfInBounds i j)
      table.put? i j (neighbour - value)) table

/-- The objective with the given values. -/
def ofEvaluation (size : Nat) (evaluate : Array Nat → Except Breach α) : Objective α :=
  { size, evaluate, scan := fullScan evaluate }

end Objective

/-- What a walk moves in: an objective together with whatever it remembers between scans. -/
class Landscape (L : Type) (α : outParam Type) where
  size : L → Nat
  evaluate : L → Array Nat → Except Breach α
  scan : L → Array Nat → α → Option (Nat × Nat) → GainTable α → Except Breach (L × GainTable α)

instance {α : Type} : Landscape (Objective α) α where
  size o := o.size
  evaluate o := o.evaluate
  scan o solution value hint table := do
    return (o, ← o.scan solution value hint table)

end SwapSearch
