import Mathlib.Algebra.BigOperators.Ring.Finset
import Mathlib.Analysis.SpecialFunctions.Pow.Real
import SwapSearch.Assignment
import SwapSearch.Permutation
import SwapSearch.Proofs.Assignment.Exchange
import SwapSearch.Proofs.GainTable
import SwapSearch.Proofs.Permutation
import SwapSearch.Proofs.Scalar.Exact
import SwapSearch.Proofs.Signed

/-!
# SwapSearch — the gains of a quadratic assignment

The gain of a pair is minus the change of cost that its exchange brings about. A
scan without a hint computes the change from one row and one column; a scan with
a hint recomputes the pairs that meet the hint and shifts all others. In exact
arithmetic, and as long as no sum leaves the 64 bits, a table that has been
patched through any chain of exchanges holds the same gains as one that has just
been filled.

The invariant is `HoldsGains`: every cell is minus the integer change of its pair. A
scan without a hint establishes it from any table, and a scan with a hint carries it
across the exchange.

## Results

* `yields_cost`, `yields_swapCost`, `yields_swapCostShift` — the formulas over the integers.
* `scan_none_gains`, `scan_some_gains` — what a scan stores, whatever the arithmetic.
* `scan_fill`     — a scan without a hint.
* `scan_patch`    — a scan with a hint, from the table of the solution before.
* `rescan_exact`  — any chain of scans.
-/

namespace SwapSearch.Assignment

open Exchange

-- ---------------------------------------------------------------------------
-- The matrices as functions
-- ---------------------------------------------------------------------------

/-- Both matrices have the width of the instance. -/
structure Square (q : Assignment) : Prop where
  flow : q.flow.size = q.size * q.size
  distance : q.distance.size = q.size * q.size

/-- The flow from position `i` to position `j`. -/
def flowOf (q : Assignment) (i j : Nat) : Int := q.flow.getD (i * q.size + j) 0

/-- The distance between the items at positions `i` and `j`. -/
def distanceOf (q : Assignment) (p : Array Nat) (i j : Nat) : Int :=
  q.distance.getD (p.getD i 0 * q.size + p.getD j 0) 0

section Formulas

variable {q : Assignment} {p : Permutation}

theorem entry_eq {matrix : Array Int} {n i j : Nat} (hSize : matrix.size = n * n) (hi : i < n)
    (hj : j < n) : entry matrix n i j = .ok (matrix.getD (i * n + j) 0) := by
  have hIndex : i * n + j < matrix.size := hSize ▸ rowMajor_lt hi hj
  unfold entry
  rw [Array.getD_eq_getD_getElem?, Array.getElem?_eq_getElem hIndex]
  rfl

theorem itemAt_eq {i : Nat} (hi : i < p.size) : itemAt p.values i = .ok (p.values.getD i 0) := by
  have hIndex : i < p.values.size := hi
  unfold itemAt
  rw [Array.getD_eq_getD_getElem?, Array.getElem?_eq_getElem hIndex]
  rfl

theorem getD_lt {i : Nat} (hi : i < p.size) : p.values.getD i 0 < p.size := by
  have hIndex : i < p.values.size := hi
  rw [Array.getD_eq_getD_getElem?, Array.getElem?_eq_getElem hIndex]
  exact p.isPermutation.1 _ (Array.getElem_mem hIndex)

theorem flowAt_eq (hSquare : q.Square) {i j : Nat} (hi : i < q.size) (hj : j < q.size) :
    (q.flowAt i j).result = .ok (q.flowOf i j) :=
  entry_eq hSquare.flow hi hj

theorem distanceAt_eq (hSquare : q.Square) (hp : p.size = q.size) {i j : Nat} (hi : i < q.size)
    (hj : j < q.size) : (q.distanceAt p.values i j).result = .ok (q.distanceOf p.values i j) := by
  rw [← hp] at hi hj
  unfold distanceAt
  rw [itemAt_eq hi, itemAt_eq hj]
  exact entry_eq hSquare.distance (hp ▸ getD_lt hi) (hp ▸ getD_lt hj)

theorem yields_flowAt (hSquare : q.Square) {i j : Nat} (hi : i < q.size) (hj : j < q.size) :
    (q.flowAt i j).Yields (q.flowOf i j) :=
  Or.inl (flowAt_eq hSquare hi hj)

theorem yields_distanceAt (hSquare : q.Square) (hp : p.size = q.size) {i j : Nat}
    (hi : i < q.size) (hj : j < q.size) :
    (q.distanceAt p.values i j).Yields (q.distanceOf p.values i j) :=
  Or.inl (distanceAt_eq hSquare hp hi hj)

theorem sum_map_range (n : Nat) (g : Nat → Int) :
    ((List.range n).map g).sum = ∑ k ∈ Finset.range n, g k := rfl

/-- The cost is the double sum. -/
theorem yields_cost (hSquare : q.Square) (hp : p.size = q.size) :
    (q.costTerm p.values).Yields (total q.size q.flowOf (q.distanceOf p.values)) := by
  have hRow : ∀ i ∈ List.range q.size, ∀ (x : Signed) (v : Int), x.Yields v →
      ((List.range q.size).foldl
        (fun sum j => sum + q.flowAt i j * q.distanceAt p.values i j) x).Yields
      (v + ∑ j ∈ Finset.range q.size, q.flowOf i j * q.distanceOf p.values i j) := by
    intro i hi x v hx
    rw [← sum_map_range]
    refine Signed.yields_foldl (fun j hj y w hy => hy.add ?_) hx
    have hi' := List.mem_range.mp hi
    have hj' := List.mem_range.mp hj
    exact (yields_flowAt hSquare hi' hj').mul (yields_distanceAt hSquare hp hi' hj')
  have hSum := Signed.yields_foldl hRow Signed.yields_zero
  rw [sum_map_range, Int.zero_add] at hSum
  exact hSum

theorem yields_swapTerm (hSquare : q.Square) (hp : p.size = q.size) {i j k : Nat}
    (hi : i < q.size) (hj : j < q.size) (hk : k < q.size) :
    (q.swapTerm p.values i j k).Yields (term q.flowOf (q.distanceOf p.values) i j k) := by
  have a : ∀ {x y}, x < q.size → y < q.size → (q.flowAt x y).Yields (q.flowOf x y) :=
    fun hx hy => yields_flowAt hSquare hx hy
  have b : ∀ {x y}, x < q.size → y < q.size →
      (q.distanceAt p.values x y).Yields (q.distanceOf p.values x y) :=
    fun hx hy => yields_distanceAt hSquare hp hx hy
  exact (((a hk hi).sub (a hk hj)).mul ((b hk hj).sub (b hk hi))).add
    (((a hi hk).sub (a hj hk)).mul ((b hj hk).sub (b hi hk)))

/-- The swap cost is the change of the double sum. -/
theorem yields_swapCost (hSquare : q.Square) (hp : p.size = q.size) {i j : Nat}
    (hi : i < q.size) (hj : j < q.size) :
    (q.swapCostTerm p.values i j).Yields
      (change q.size q.flowOf (q.distanceOf p.values) i j) := by
  have a : ∀ {x y}, x < q.size → y < q.size → (q.flowAt x y).Yields (q.flowOf x y) :=
    fun hx hy => yields_flowAt hSquare hx hy
  have b : ∀ {x y}, x < q.size → y < q.size →
      (q.distanceAt p.values x y).Yields (q.distanceOf p.values x y) :=
    fun hx hy => yields_distanceAt hSquare hp hx hy
  -- the four corner terms
  have hStart := (((a hi hi).sub (a hj hj)).mul ((b hj hj).sub (b hi hi))).add
    (((a hi hj).sub (a hj hi)).mul ((b hj hi).sub (b hi hj)))
  -- the loop skips the pair, and the sum has a zero there
  have hStep : ∀ k ∈ List.range p.values.size, ∀ (x : Signed) (v : Int), x.Yields v →
      (if k ≠ i ∧ k ≠ j then x + q.swapTerm p.values i j k else x).Yields
        (v + if k ≠ i ∧ k ≠ j then term q.flowOf (q.distanceOf p.values) i j k else 0) := by
    intro k hk x v hx
    have hk' : k < q.size := by
      rw [← hp]
      exact List.mem_range.mp hk
    split
    · exact hx.add (yields_swapTerm hSquare hp hi hj hk')
    · rw [Int.add_zero]
      exact hx
  have hSum := Signed.yields_foldl hStep hStart
  -- the positions that are not skipped are those of the change
  have hOthers : (Finset.range p.values.size).filter (fun k => k ≠ i ∧ k ≠ j) =
      Finset.range q.size \ {i, j} := by
    rw [show p.values.size = q.size from hp]
    ext k
    simp
  rw [sum_map_range, ← Finset.sum_filter, hOthers] at hSum
  exact hSum

theorem yields_swapCostShift (hSquare : q.Square) (hp : p.size = q.size) {i j r s : Nat}
    (hi : i < q.size) (hj : j < q.size) (hr : r < q.size) (hs : s < q.size) :
    (q.swapCostShiftTerm p.values i j r s).Yields
      (shift q.flowOf (q.distanceOf p.values) i j r s) := by
  have a : ∀ {x y}, x < q.size → y < q.size → (q.flowAt x y).Yields (q.flowOf x y) :=
    fun hx hy => yields_flowAt hSquare hx hy
  have b : ∀ {x y}, x < q.size → y < q.size →
      (q.distanceAt p.values x y).Yields (q.distanceOf p.values x y) :=
    fun hx hy => yields_distanceAt hSquare hp hx hy
  exact (((((a hr hi).sub (a hr hj)).add (a hs hj)).sub (a hs hi)).mul
      ((((b hs hi).sub (b hs hj)).add (b hr hj)).sub (b hr hi))).add
    (((((a hi hr).sub (a hj hr)).add (a hj hs)).sub (a hi hs)).mul
      ((((b hi hs).sub (b hj hs)).add (b hj hr)).sub (b hi hr)))

theorem getD_swap {i j : Nat} (hi : i < p.size) (hj : j < p.size) (k : Nat) :
    (p.swap i j).values.getD k 0 = p.values.getD (Equiv.swap i j k) 0 := by
  rw [Array.getD_eq_getD_getElem?, Array.getD_eq_getD_getElem?, Permutation.getElem?_swap hi hj]

/-- Exchanging two positions of a solution exchanges them in the distances. -/
theorem distanceOf_swap (q : Assignment) {i j : Nat} (hi : i < p.size) (hj : j < p.size) :
    q.distanceOf (p.swap i j).values = exchanged i j (q.distanceOf p.values) := by
  funext k l
  unfold exchanged distanceOf
  rw [getD_swap hi hj, getD_swap hi hj]

end Formulas

-- ---------------------------------------------------------------------------
-- Scans
-- ---------------------------------------------------------------------------

/-- No computation about the solution `p`, reached by the exchange `hint`, overflows: its cost and
the costs of its neighbours, the swap costs, and the shifts of the pairs that do not meet the
hint. -/
structure Representable (q : Assignment) (p : Permutation) (hint : Option (Nat × Nat)) :
    Prop where
  cost : (q.costTerm p.values).InRange
  neighbour : ∀ j < q.size, ∀ i < j, (q.costTerm (p.swap i j).values).InRange
  swapCost : ∀ j < q.size, ∀ i < j, (q.swapCostTerm p.values i j).InRange
  shift : ∀ pair ∈ hint, ∀ j < q.size, ∀ i < j,
    ¬ (i = pair.1 ∨ i = pair.2 ∨ j = pair.1 ∨ j = pair.2) →
    (q.swapCostShiftTerm p.values i j pair.1 pair.2).InRange

instance (q : Assignment) (p : Permutation) (hint : Option (Nat × Nat)) :
    Decidable (Representable q p hint) :=
  decidable_of_iff
    ((q.costTerm p.values).InRange ∧
      (∀ j < q.size, ∀ i < j, (q.costTerm (p.swap i j).values).InRange) ∧
      (∀ j < q.size, ∀ i < j, (q.swapCostTerm p.values i j).InRange) ∧
      ∀ pair ∈ hint, ∀ j < q.size, ∀ i < j,
        ¬ (i = pair.1 ∨ i = pair.2 ∨ j = pair.1 ∨ j = pair.2) →
        (q.swapCostShiftTerm p.values i j pair.1 pair.2).InRange)
    ⟨fun h => ⟨h.1, h.2.1, h.2.2.1, h.2.2.2⟩, fun h => ⟨h.1, h.2, h.3, h.4⟩⟩

section Step

variable {α : Type}

/-- An exchange of two positions, and the value that is passed to the scan after it. -/
structure Step (α : Type) where
  first : Nat
  second : Nat
  value : α

/-- The solution after a sequence of exchanges. -/
def endpoint (p : Permutation) (steps : List (Step α)) : Permutation :=
  steps.foldl (fun p step => p.swap step.first step.second) p

/-- Scans the same table after each exchange, with the exchange as the hint. -/
def rescan [Scalar α] (q : Assignment) :
    Permutation → List (Step α) → GainTable α → Except Breach (GainTable α)
  | _, [], table => .ok table
  | p, ⟨r, s, value⟩ :: rest, table => do
    let table ← q.scan (p.swap r s).values value (some (r, s)) table
    q.rescan (p.swap r s) rest table

/-- The exchanges are proper, and no computation about a solution on the way overflows. -/
def Passable (q : Assignment) : Permutation → List (Step α) → Prop
  | _, [] => True
  | p, ⟨r, s, _⟩ :: rest =>
    (r ≠ s ∧ r < q.size ∧ s < q.size) ∧ Representable q (p.swap r s) (some (r, s)) ∧
      Passable q (p.swap r s) rest

theorem size_endpoint (p : Permutation) (steps : List (Step α)) :
    (endpoint p steps).size = p.size := by
  induction steps generalizing p with
  | nil => rfl
  | cons step rest ih => exact (ih _).trans (Permutation.size_swap ..)

end Step

section Cells

variable {α : Type} [Scalar α] {q : Assignment} {p : Permutation} {table : GainTable α}

/-- What a scan with the exchange of `r` and `s` as its hint makes of the gain of a pair. -/
def patched (q : Assignment) (p : Permutation) (r s i j : Nat) (gain : α) : α :=
  if i = r ∨ i = s ∨ j = r ∨ j = s then
    -((change q.size q.flowOf (q.distanceOf p.values) i j : Int) : α)
  else gain + -((shift q.flowOf (q.distanceOf p.values) i j r s : Int) : α)

theorem refreshPair_eq (hSquare : q.Square) (hp : p.size = q.size) {hint : Option (Nat × Nat)}
    (hRange : Representable q p hint) (hSize : q.size ≤ table.size) {i j : Nat} (hij : i < j)
    (hj : j < q.size) :
    q.refreshPair p.values table i j = .ok (table.put i j
      (-((change q.size q.flowOf (q.distanceOf p.values) i j : Int) : α))) := by
  have hCost : q.swapCost p.values i j =
      .ok (change q.size q.flowOf (q.distanceOf p.values) i j) :=
    (yields_swapCost hSquare hp (by omega) hj).result_eq (hRange.swapCost j hj i hij)
  unfold refreshPair
  rw [hCost]
  exact GainTable.put?_of_lt hij (by omega) _

theorem patchPair_eq (hSquare : q.Square) (hp : p.size = q.size) {r s : Nat} (hr : r < q.size)
    (hs : s < q.size) (hRange : Representable q p (some (r, s))) (hSize : q.size ≤ table.size)
    {i j : Nat} (hij : i < j) (hj : j < q.size) :
    q.patchPair p.values r s table i j =
      .ok (table.put i j (patched q p r s i j (table.gain i j))) := by
  unfold patchPair patched
  by_cases hMeets : i = r ∨ i = s ∨ j = r ∨ j = s
  · rw [if_pos hMeets, if_pos hMeets]
    exact refreshPair_eq hSquare hp hRange hSize hij hj
  · have hShift : q.swapCostShift p.values i j r s =
        .ok (shift q.flowOf (q.distanceOf p.values) i j r s) :=
      (yields_swapCostShift hSquare hp (by omega) hj hr hs).result_eq
        (hRange.shift (r, s) rfl j hj i hij hMeets)
    rw [if_neg hMeets, if_neg hMeets, hShift]
    exact GainTable.add?_of_lt hij (by omega) _

/-- What a scan without a hint stores, in the arithmetic of the scalars. -/
theorem scan_none_gains (hSquare : q.Square) (hp : p.size = q.size) {hint : Option (Nat × Nat)}
    (hRange : Representable q p hint) (hSize : q.size ≤ table.size) (value : α) :
    ∃ table', q.scan p.values value none table = .ok table' ∧ table'.size = table.size ∧
      ∀ i j, i < j → j < q.size →
        table'.gain i j = -((change q.size q.flowOf (q.distanceOf p.values) i j : Int) : α) :=
  GainTable.fill_swapPairs
    (fun i j _ => -((change q.size q.flowOf (q.distanceOf p.values) i j : Int) : α))
    (fun _ hSize _ _ hij hj => refreshPair_eq hSquare hp hRange hSize hij hj) hSize

/-- What a scan with a hint stores, in the arithmetic of the scalars. -/
theorem scan_some_gains (hSquare : q.Square) (hp : p.size = q.size) {r s : Nat} (hNe : r ≠ s)
    (hr : r < q.size) (hs : s < q.size) (hRange : Representable q p (some (r, s)))
    (hSize : q.size ≤ table.size) (value : α) :
    ∃ table', q.scan p.values value (some (r, s)) table = .ok table' ∧
      table'.size = table.size ∧ ∀ i j, i < j → j < q.size →
        table'.gain i j = patched q p r s i j (table.gain i j) := by
  unfold scan
  dsimp only
  rw [if_pos hNe]
  exact GainTable.fill_swapPairs (patched q p r s)
    (fun _ hSize _ _ hij hj => patchPair_eq hSquare hp hr hs hRange hSize hij hj) hSize

end Cells

variable {α : Type} [ExactScalar α]

/-- Every cell is minus the change of cost of its pair. -/
def HoldsGains (q : Assignment) (p : Permutation) (table : GainTable α) : Prop :=
  ∀ i j, i < j → j < q.size →
    table.gain i j = -((change q.size q.flowOf (q.distanceOf p.values) i j : Int) : α)

section Scan

variable {q : Assignment} {p : Permutation} {table : GainTable α}

/-- A scan without a hint fills any table with the gains. -/
theorem scan_fill (hSquare : q.Square) (hp : p.size = q.size) {hint : Option (Nat × Nat)}
    (hRange : Representable q p hint) (hSize : q.size ≤ table.size) (value : α) :
    ∃ table', q.scan p.values value none table = .ok table' ∧ table'.size = table.size ∧
      HoldsGains q p table' :=
  scan_none_gains hSquare hp hRange hSize value

/-- A scan with a hint carries the gains across the exchange. -/
theorem scan_patch (hSquare : q.Square) (hp : p.size = q.size) {r s : Nat} (hNe : r ≠ s)
    (hr : r < q.size) (hs : s < q.size) (hRange : Representable q (p.swap r s) (some (r, s)))
    (hSize : q.size ≤ table.size) (hGains : HoldsGains q p table) (value : α) :
    ∃ table', q.scan (p.swap r s).values value (some (r, s)) table = .ok table' ∧
      table'.size = table.size ∧ HoldsGains q (p.swap r s) table' := by
  have hp' : (p.swap r s).size = q.size := (Permutation.size_swap p r s).trans hp
  obtain ⟨table', hScan, hSize', hPatched⟩ :=
    scan_some_gains hSquare hp' hNe hr hs hRange hSize value
  refine ⟨table', hScan, hSize', fun i j hij hj => ?_⟩
  rw [hPatched i j hij hj]
  unfold patched
  -- a pair that meets the exchange is computed afresh; any other is shifted by the rule of Taillard
  split
  · rfl
  · next hApart =>
    obtain ⟨hir, his, hjr, hjs⟩ : i ≠ r ∧ i ≠ s ∧ j ≠ r ∧ j ≠ s := by
      simpa only [not_or] using hApart
    have hTaillard := change_exchange q.flowOf (q.distanceOf p.values) hNe hr hs hir his hjr hjs
    rw [distanceOf_swap q (hp ▸ hr) (hp ▸ hs), hTaillard, hGains i j hij hj]
    push_cast
    ring

/-- A gain is minus the difference of two costs. -/
theorem HoldsGains.eq_cost_sub (hGains : HoldsGains q p table) (hSquare : q.Square)
    (hp : p.size = q.size) {hint : Option (Nat × Nat)} (hRange : Representable q p hint)
    {i j : Nat} (hij : i < j) (hj : j < q.size) :
    ∃ c c', q.cost p.values = .ok c ∧ q.cost (p.swap i j).values = .ok c' ∧
      table.gain i j = -((c' - c : Int) : α) := by
  have hp' : (p.swap i j).size = q.size := (Permutation.size_swap p i j).trans hp
  refine ⟨_, _, (yields_cost hSquare hp).result_eq hRange.cost,
    (yields_cost hSquare hp').result_eq (hRange.neighbour j hj i hij), ?_⟩
  rw [hGains i j hij hj, distanceOf_swap q (by omega) (by omega),
    change_eq q.flowOf (q.distanceOf p.values) (by omega) (by omega) hj]

end Scan

-- ---------------------------------------------------------------------------
-- Chains of scans
-- ---------------------------------------------------------------------------

section Chain

variable {q : Assignment} {p : Permutation} {table : GainTable α}

/-- The gains follow the solution through any sequence of exchanges. -/
theorem rescan_holdsGains (hSquare : q.Square) {steps : List (Step α)} (hp : p.size = q.size)
    {hint : Option (Nat × Nat)} (hRange : Representable q p hint) (hSteps : Passable q p steps)
    (hSize : q.size ≤ table.size) (hGains : HoldsGains q p table) :
    ∃ table' hint', q.rescan p steps table = .ok table' ∧ table'.size = table.size ∧
      HoldsGains q (endpoint p steps) table' ∧ Representable q (endpoint p steps) hint' := by
  induction steps generalizing p table hint with
  | nil => exact ⟨table, hint, rfl, rfl, hGains, hRange⟩
  | cons step rest ih =>
    obtain ⟨r, s, value⟩ := step
    obtain ⟨⟨hNe, hr, hs⟩, hRange', hRest⟩ := hSteps
    obtain ⟨table', hScan, hSize', hGains'⟩ :=
      scan_patch hSquare hp hNe hr hs hRange' hSize hGains value
    obtain ⟨last, hint', hRescan, hSizeLast, hGainsLast, hRangeLast⟩ :=
      ih ((Permutation.size_swap ..).trans hp) hRange' hRest (hSize' ▸ hSize) hGains'
    refine ⟨last, hint', ?_, hSizeLast.trans hSize', hGainsLast, hRangeLast⟩
    unfold rescan
    rw [hScan]
    exact hRescan

/-- **The patched table is exact.** Scan once without a hint and then after each of any number of
exchanges with the exchange as the hint: every gain is minus the difference of the two costs, and
a scan without a hint, into any table, stores the same gains. -/
theorem rescan_exact (hSquare : q.Square) (hp : p.size = q.size) (hRange : Representable q p none)
    {steps : List (Step α)} (hSteps : Passable q p steps) (hSize : table.size = q.size)
    (value : α) :
    ∃ first last, q.scan p.values value none table = .ok first ∧
      q.rescan p steps first = .ok last ∧
      (∀ i j, i < j → j < q.size → ∃ c c',
        q.cost (endpoint p steps).values = .ok c ∧
        q.cost ((endpoint p steps).swap i j).values = .ok c' ∧
        last.gain i j = -((c' - c : Int) : α)) ∧
      ∀ (value' : α) (other : GainTable α), other.size = q.size → ∃ filled,
        q.scan (endpoint p steps).values value' none other = .ok filled ∧
        ∀ i j, i < j → j < q.size → last.gain i j = filled.gain i j := by
  obtain ⟨first, hFirst, hSizeFirst, hGainsFirst⟩ :=
    scan_fill hSquare hp hRange (Nat.le_of_eq hSize.symm) value
  obtain ⟨last, hint, hRescan, -, hGains, hRangeLast⟩ :=
    rescan_holdsGains hSquare hp hRange hSteps (by omega) hGainsFirst
  have hp' : (endpoint p steps).size = q.size := (size_endpoint p steps).trans hp
  refine ⟨first, last, hFirst, hRescan,
    fun i j hij hj => hGains.eq_cost_sub hSquare hp' hRangeLast hij hj,
    fun value' other hOther => ?_⟩
  obtain ⟨filled, hFill, -, hFilled⟩ :=
    scan_fill hSquare hp' hRangeLast (Nat.le_of_eq hOther.symm) value'
  refine ⟨filled, hFill, fun i j hij hj => ?_⟩
  rw [hGains i j hij hj, hFilled i j hij hj]

theorem rescan_exact_two_steps :
    let q : Assignment :=
      ⟨4, #[1, 5, 2, 7, 0, 3, 8, 1, 4, 4, 2, 9, 6, 1, 3, 5],
        #[2, 1, 7, 3, 9, 0, 4, 4, 5, 8, 1, 6, 2, 3, 7, 1]⟩
    let steps : List (Step ℚ) := [⟨3, 1, 0⟩, ⟨0, 2, 5⟩]
    q.Square ∧ (Permutation.identity 4).size = q.size ∧
    Representable q (.identity 4) none ∧ Passable q (.identity 4) steps ∧
    (GainTable.zeros 4 : GainTable ℚ).size = q.size ∧
    ∃ first last, q.scan (Permutation.identity 4).values 0 none (.zeros 4) = .ok first ∧
      q.rescan (.identity 4) steps first = .ok last ∧
      (∀ i j, i < j → j < q.size → ∃ c c',
        q.cost (endpoint (.identity 4) steps).values = .ok c ∧
        q.cost ((endpoint (.identity 4) steps).swap i j).values = .ok c' ∧
        last.gain i j = -((c' - c : Int) : ℚ)) ∧
      ∀ (value' : ℚ) (other : GainTable ℚ), other.size = q.size → ∃ filled,
        q.scan (endpoint (.identity 4) steps).values value' none other = .ok filled ∧
        ∀ i j, i < j → j < q.size → last.gain i j = filled.gain i j := by
  intro q steps
  have hSquare : q.Square := ⟨rfl, rfl⟩
  have hRange : Representable q (.identity 4) none := by decide +kernel
  -- the second step meets the first in position 0
  have hSteps : Passable q (.identity 4) steps :=
    ⟨by decide, by decide +kernel, by decide, by decide +kernel, trivial⟩
  exact ⟨hSquare, rfl, hRange, hSteps, rfl, rescan_exact hSquare rfl hRange hSteps rfl 0⟩

end Chain

end SwapSearch.Assignment
