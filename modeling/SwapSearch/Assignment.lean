import SwapSearch.Objective

/-!
# SwapSearch — quadratic assignment

`n` items are placed on `n` positions. Position `i` sends `flow i j` to position
`j`, and the items `x` and `y` are `distance x y` apart. The cost of an assignment
`p` is `∑ i j, flow i j * distance p[i] p[j]`, and its value as an objective is
the negated cost. The matrices are integer and need be neither symmetric nor zero
on the diagonal.

Exchanging two positions changes the cost by a sum over one row and one column
(`swapCost`). After an exchange of `r` and `s`, the change belonging to a pair
`i, j` that shares no position with it moves by an amount read off eight entries
of each matrix (`swapCostShift`); a scan with a hint therefore recomputes only
the pairs that meet the hint and patches all others (Taillard's rule).

All arithmetic is signed 64-bit, see `Signed`.
-/

namespace SwapSearch

/-- An instance with row-major `size × size` matrices. -/
structure Assignment where
  size : Nat
  flow : Array Int
  distance : Array Int
  deriving DecidableEq, Repr

namespace Assignment

/-- The entry of a row-major matrix of width `n`. -/
def entry (matrix : Array Int) (n i j : Nat) : Except Breach Int :=
  match matrix[i * n + j]? with
  | some x => .ok x
  | none => .error .outOfBounds

/-- The item at a position of a solution. -/
def itemAt (p : Array Nat) (i : Nat) : Except Breach Nat :=
  match p[i]? with
  | some x => .ok x
  | none => .error .outOfBounds

/-- The flow between two positions. -/
def flowAt (q : Assignment) (i j : Nat) : Signed := ⟨entry q.flow q.size i j⟩

/-- The distance between the items at two positions. -/
def distanceAt (q : Assignment) (p : Array Nat) (i j : Nat) : Signed :=
  ⟨do
    let x ← itemAt p i
    let y ← itemAt p j
    entry q.distance q.size x y⟩

/-- The cost as a 64-bit computation, row by row. -/
def costTerm (q : Assignment) (p : Array Nat) : Signed :=
  (List.range q.size).foldl (fun sum i =>
    (List.range q.size).foldl (fun sum j => sum + q.flowAt i j * q.distanceAt p i j) sum) 0

/-- The cost of a solution; lower is better. -/
def cost (q : Assignment) (p : Array Nat) : Except Breach Int := (q.costTerm p).result

/-- What the two flows from and to position `k` contribute when `i` and `j` are exchanged. -/
def swapTerm (q : Assignment) (p : Array Nat) (i j k : Nat) : Signed :=
  let a := q.flowAt
  let b := q.distanceAt p
  (a k i - a k j) * (b k j - b k i) + (a i k - a j k) * (b j k - b i k)

/-- The change of cost when positions `i` and `j` of `p` are exchanged. -/
def swapCostTerm (q : Assignment) (p : Array Nat) (i j : Nat) : Signed :=
  let a := q.flowAt
  let b := q.distanceAt p
  (List.range p.size).foldl
    (fun sum k => if k ≠ i ∧ k ≠ j then sum + q.swapTerm p i j k else sum)
    ((a i i - a j j) * (b j j - b i i) + (a i j - a j i) * (b j i - b i j))

def swapCost (q : Assignment) (p : Array Nat) (i j : Nat) : Except Breach Int :=
  (q.swapCostTerm p i j).result

/-- The change of `swapCost i j` that the exchange of `r` and `s` which produced `p` brought
about, for pairs without a position in common. -/
def swapCostShiftTerm (q : Assignment) (p : Array Nat) (i j r s : Nat) : Signed :=
  let a := q.flowAt
  let b := q.distanceAt p
  (a r i - a r j + a s j - a s i) * (b s i - b s j + b r j - b r i) +
    (a i r - a j r + a j s - a i s) * (b i s - b j s + b j r - b i r)

def swapCostShift (q : Assignment) (p : Array Nat) (i j r s : Nat) : Except Breach Int :=
  (q.swapCostShiftTerm p i j r s).result

-- ---------------------------------------------------------------------------
-- As an objective
-- ---------------------------------------------------------------------------

variable {α : Type} [Scalar α]

/-- The negated cost. -/
def evaluate (q : Assignment) (p : Array Nat) : Except Breach α := do
  return -((← q.cost p : Int) : α)

/-- Stores the negated swap cost of a pair. -/
def refreshPair (q : Assignment) (p : Array Nat) (table : GainTable α) (i j : Nat) :
    Except Breach (GainTable α) := do
  table.put? i j (-((← q.swapCost p i j : Int) : α))

/-- Brings a pair up to date after the exchange of `r` and `s`. -/
def patchPair (q : Assignment) (p : Array Nat) (r s : Nat) (table : GainTable α) (i j : Nat) :
    Except Breach (GainTable α) := do
  if i = r ∨ i = s ∨ j = r ∨ j = s then q.refreshPair p table i j
  else table.add? i j (-((← q.swapCostShift p i j r s : Int) : α))

/-- Fills the table, or patches it after the exchange of two different positions. -/
def scan (q : Assignment) : Scan α := fun p _ hint table =>
  match hint with
  | some (r, s) =>
    if r ≠ s then
      (swapPairs q.size).foldlM (fun table (i, j) => q.patchPair p r s table i j) table
    else (swapPairs q.size).foldlM (fun table (i, j) => q.refreshPair p table i j) table
  | none => (swapPairs q.size).foldlM (fun table (i, j) => q.refreshPair p table i j) table

/-- The instance as an objective to maximise. -/
def toObjective (q : Assignment) : Objective α :=
  { size := q.size, evaluate := q.evaluate, scan := q.scan }

end Assignment

end SwapSearch
