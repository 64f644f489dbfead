import SwapSearch.Proofs.Assignment.Scan

/-!
# SwapSearch — how large the costs are

With entries of magnitude at most `A` and `B` the cost of a solution is at most `n² A B`, the
swap cost of a pair at most `8 (n + 1) A B` and a shift at most `32 A B`. These are bounds on the
sums of magnitudes, so they hold for every partial sum, product and difference on the way as
well, whatever cancels in the end.

An instance is *small* if `32 n² A B` is at most `2 ^ 53`. All of these computations then stay
within the range of signed words, and their results are integers that floating point
represents.

## Results

* `within_costTerm`, `within_swapCostTerm`, `within_swapCostShiftTerm` — the bounds.
* `IsSmall.bounded`       — all results about a small instance are at most `2 ^ 53`.
* `IsSmall.representable` — and no computation about it overflows.
-/

namespace SwapSearch.Assignment

open Exchange

/-- The largest magnitude of an entry, at least one. -/
def largest (matrix : Array Int) : Nat := max 1 ((matrix.toList.map Int.natAbs).foldr max 0)

theorem one_le_largest (matrix : Array Int) : 1 ≤ largest matrix := Nat.le_max_left ..

theorem natAbs_getD_le (matrix : Array Int) (k : Nat) :
    (matrix.getD k 0).natAbs ≤ largest matrix := by
  rw [Array.getD_eq_getD_getElem?]
  cases hEntry : matrix[k]? with
  | none => exact Nat.zero_le _
  | some x =>
    have hMem : x.natAbs ∈ matrix.toList.map Int.natAbs :=
      List.mem_map_of_mem (Array.mem_toList_iff.mpr (Array.mem_of_getElem? hEntry))
    exact (List.le_max_of_le hMem (Nat.le_refl _)).trans (Nat.le_max_right ..)

-- ---------------------------------------------------------------------------
-- Magnitudes
-- ---------------------------------------------------------------------------

section Bounds

variable {q : Assignment} {p : Permutation} {i j k r s : Nat}

theorem within_flowAt (hSquare : q.Square) (hi : i < q.size) (hj : j < q.size) :
    (q.flowAt i j).Within (largest q.flow) :=
  fun _ => ⟨_, flowAt_eq hSquare hi hj, natAbs_getD_le ..⟩

theorem within_distanceAt (hSquare : q.Square) (hp : p.size = q.size) (hi : i < q.size)
    (hj : j < q.size) : (q.distanceAt p.values i j).Within (largest q.distance) :=
  fun _ => ⟨_, distanceAt_eq hSquare hp hi hj, natAbs_getD_le ..⟩

/-- The cost adds `n²` products of two entries. -/
theorem within_costTerm (hSquare : q.Square) (hp : p.size = q.size) :
    (q.costTerm p.values).Within
      (q.size * (q.size * (largest q.flow * largest q.distance))) := by
  -- one entry adds at most one product, one row at most `n` of them
  have hCell : ∀ i < q.size, ∀ j ∈ List.range q.size, ∀ (x : Signed) (m : Nat), x.Within m →
      (x + q.flowAt i j * q.distanceAt p.values i j).Within
        (m + largest q.flow * largest q.distance) := by
    intro i hi j hj x m hx
    have hj' := List.mem_range.mp hj
    exact hx.add ((within_flowAt hSquare hi hj').mul (within_distanceAt hSquare hp hi hj')
      (one_le_largest _) (one_le_largest _))
  have hRow : ∀ i ∈ List.range q.size, ∀ (x : Signed) (m : Nat), x.Within m →
      ((List.range q.size).foldl
        (fun sum j => sum + q.flowAt i j * q.distanceAt p.values i j) x).Within
      (m + q.size * (largest q.flow * largest q.distance)) := by
    intro i hi x m hx
    have hSum := Signed.within_foldl (hCell i (List.mem_range.mp hi)) hx
    rwa [List.length_range] at hSum
  have hSum := Signed.within_foldl hRow Signed.within_zero
  rwa [List.length_range, Nat.zero_add] at hSum

/-- Two products, each of two differences of entries. -/
theorem within_swapTerm (hSquare : q.Square) (hp : p.size = q.size) (hi : i < q.size)
    (hj : j < q.size) (hk : k < q.size) :
    (q.swapTerm p.values i j k).Within (8 * (largest q.flow * largest q.distance)) := by
  have a {x y : Nat} (hx : x < q.size) (hy : y < q.size) := within_flowAt hSquare hx hy
  have b {x y : Nat} (hx : x < q.size) (hy : y < q.size) := within_distanceAt hSquare hp hx hy
  have hA := one_le_largest q.flow
  have hB := one_le_largest q.distance
  have hTerm := (((a hk hi).sub (a hk hj)).mul ((b hk hj).sub (b hk hi))
      (by omega) (by omega)).add
    (((a hi hk).sub (a hj hk)).mul ((b hj hk).sub (b hi hk)) (by omega) (by omega))
  exact hTerm.mono (Nat.le_of_eq (by ring))

/-- The swap cost starts with two such products and adds two for each position. -/
theorem within_swapCostTerm (hSquare : q.Square) (hp : p.size = q.size) (hi : i < q.size)
    (hj : j < q.size) :
    (q.swapCostTerm p.values i j).Within
      ((q.size + 1) * (8 * (largest q.flow * largest q.distance))) := by
  have a {x y : Nat} (hx : x < q.size) (hy : y < q.size) := within_flowAt hSquare hx hy
  have b {x y : Nat} (hx : x < q.size) (hy : y < q.size) := within_distanceAt hSquare hp hx hy
  have hA := one_le_largest q.flow
  have hB := one_le_largest q.distance
  -- the corner terms: differences of two entries each, so four products apiece
  have hStart := (((a hi hi).sub (a hj hj)).mul ((b hj hj).sub (b hi hi))
      (by omega) (by omega)).add
    (((a hi hj).sub (a hj hi)).mul ((b hj hi).sub (b hi hj)) (by omega) (by omega))
  -- every other position adds two products of differences
  have hStep : ∀ k ∈ List.range p.values.size, ∀ (x : Signed) (m : Nat), x.Within m →
      (if k ≠ i ∧ k ≠ j then x + q.swapTerm p.values i j k else x).Within
        (m + 8 * (largest q.flow * largest q.distance)) := by
    intro k hk x m hx
    have hk' : k < q.size := hp ▸ List.mem_range.mp hk
    split
    · exact hx.add (within_swapTerm hSquare hp hi hj hk')
    · exact hx.mono (Nat.le_add_right ..)
  have hSum := Signed.within_foldl hStep hStart
  refine hSum.mono (Nat.le_of_eq ?_)
  rw [List.length_range, show p.values.size = q.size from hp]
  ring

/-- Two products, each of two sums of four entries. -/
theorem within_swapCostShiftTerm (hSquare : q.Square) (hp : p.size = q.size) (hi : i < q.size)
    (hj : j < q.size) (hr : r < q.size) (hs : s < q.size) :
    (q.swapCostShiftTerm p.values i j r s).Within
      (32 * (largest q.flow * largest q.distance)) := by
  have a {x y : Nat} (hx : x < q.size) (hy : y < q.size) := within_flowAt hSquare hx hy
  have b {x y : Nat} (hx : x < q.size) (hy : y < q.size) := within_distanceAt hSquare hp hx hy
  have hA := one_le_largest q.flow
  have hB := one_le_largest q.distance
  have hTerm := (((((a hr hi).sub (a hr hj)).add (a hs hj)).sub (a hs hi)).mul
      ((((b hs hi).sub (b hs hj)).add (b hr hj)).sub (b hr hi)) (by omega) (by omega)).add
    (((((a hi hr).sub (a hj hr)).add (a hj hs)).sub (a hi hs)).mul
      ((((b hi hs).sub (b hj hs)).add (b hj hr)).sub (b hi hr)) (by omega) (by omega))
  exact hTerm.mono (Nat.le_of_eq (by ring))

end Bounds

-- ---------------------------------------------------------------------------
-- Small instances
-- ---------------------------------------------------------------------------

/-- Both matrices are square, and their entries are small enough for the size. -/
structure IsSmall (q : Assignment) : Prop extends Square q where
  bound : 32 * q.size ^ 2 * largest q.flow * largest q.distance ≤ 2 ^ 53

/-- Whatever is computed about the solution has a result, of magnitude at most `2 ^ 53`. -/
structure Bounded (q : Assignment) (p : Permutation) : Prop where
  cost : ∃ c, q.cost p.values = .ok c ∧ c.natAbs ≤ 2 ^ 53
  swapCost : ∀ i j, i < q.size → j < q.size →
    ∃ c, q.swapCost p.values i j = .ok c ∧ c.natAbs ≤ 2 ^ 53
  shift : ∀ i j r s, i < q.size → j < q.size → r < q.size → s < q.size →
    ∃ c, q.swapCostShift p.values i j r s = .ok c ∧ c.natAbs ≤ 2 ^ 53

section Small

variable {q : Assignment} {p : Permutation}

/-- A computation whose bound is at most `2 ^ 53` has a result of at most that magnitude. -/
theorem exists_result {x : Signed} {m : Nat} (h : x.Within m) (hm : m ≤ 2 ^ 53) :
    ∃ v, x.result = .ok v ∧ v.natAbs ≤ 2 ^ 53 := by
  have hFits : Signed.Fits m := Signed.fits_of_natAbs_le hm (by decide)
  obtain ⟨v, hv, hBound⟩ := h hFits
  exact ⟨v, hv, hBound.trans hm⟩

/-- **All results about a small instance are at most `2 ^ 53` in magnitude.** -/
theorem IsSmall.bounded (h : IsSmall q) (hp : p.size = q.size) : Bounded q p := by
  have hBound := h.bound
  have hCost : q.size * (q.size * (largest q.flow * largest q.distance)) =
      q.size ^ 2 * largest q.flow * largest q.distance := by ring
  have hWhole : 32 * q.size ^ 2 * largest q.flow * largest q.distance =
      32 * (q.size ^ 2 * largest q.flow * largest q.distance) := by ring
  -- one row, and one product, are at most the whole
  have hRow (hn : 0 < q.size) : q.size * (largest q.flow * largest q.distance) ≤
      q.size ^ 2 * largest q.flow * largest q.distance :=
    hCost ▸ Nat.le_mul_of_pos_left _ hn
  have hCell (hn : 0 < q.size) : largest q.flow * largest q.distance ≤
      q.size * (largest q.flow * largest q.distance) := Nat.le_mul_of_pos_left _ hn
  constructor
  case cost => exact exists_result (within_costTerm h.toSquare hp) (by omega)
  case swapCost =>
    intro i j hi hj
    have hn := Nat.zero_lt_of_lt hi
    have hRow := hRow hn
    have hCell := hCell hn
    refine exists_result (within_swapCostTerm h.toSquare hp hi hj) ?_
    rw [Nat.succ_mul, Nat.mul_left_comm]
    omega
  case shift =>
    intro i j r s hi hj hr hs
    have hn := Nat.zero_lt_of_lt hi
    have hRow := hRow hn
    have hCell := hCell hn
    exact exists_result (within_swapCostShiftTerm h.toSquare hp hi hj hr hs) (by omega)

/-- What has a result is in range. -/
theorem inRange_of_ok {x : Signed} {v : Int} (h : x.result = .ok v) : x.InRange := by
  intro hOverflow
  rw [h] at hOverflow
  cases hOverflow

/-- **No computation about a small instance overflows.** -/
theorem IsSmall.representable (h : IsSmall q) (hp : p.size = q.size) {hint : Option (Nat × Nat)}
    (hHint : ∀ pair ∈ hint, pair.1 < q.size ∧ pair.2 < q.size) : Representable q p hint := by
  have hCost (p : Permutation) (hp : p.size = q.size) : (q.costTerm p.values).InRange := by
    obtain ⟨c, hc, -⟩ := (h.bounded hp).cost
    exact inRange_of_ok hc
  constructor
  case cost => exact hCost p hp
  case neighbour => exact fun j _ i _ => hCost (p.swap i j) ((Permutation.size_swap ..).trans hp)
  case swapCost =>
    intro j hj i hij
    obtain ⟨c, hc, -⟩ := (h.bounded hp).swapCost i j (hij.trans hj) hj
    exact inRange_of_ok hc
  case shift =>
    intro pair hPair j hj i hij _
    obtain ⟨hr, hs⟩ := hHint pair hPair
    obtain ⟨c, hc, -⟩ := (h.bounded hp).shift i j pair.1 pair.2 (hij.trans hj) hj hr hs
    exact inRange_of_ok hc

end Small

end SwapSearch.Assignment
