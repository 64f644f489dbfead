import Mathlib.Data.List.Basic
import SwapSearch.Proofs.Assignment.Reader

/-!
# SwapSearch — printed instances

An instance is printed as its size and the entries of its flow and distance matrix, row by
row, each as a decimal numeral. How the numerals are set apart does not matter: any text
that consists of them in this order, with blanks in between, is read as the instance.

The cost of a solution of what has been read is the double sum over the two matrices, but
only if it can be computed in 64 bits. The sum is taken row by row, so it overflows as soon
as one of the products or one of the sums so far does not fit, even if the whole sum would
fit again.

## Results

* `lists_of_prints` — a printed instance is listed by its text.
* `cost_cases`      — when a cost has its value, and when it overflows.
* `ofText_printed`  — a printed instance is read back, and so are the costs that fit.
* `printed_cost_overflows` — a printed instance with a cost that does not fit.
-/

namespace SwapSearch.Assignment

open Exchange

variable {q : Assignment} {p : Permutation} {text : String}

-- ---------------------------------------------------------------------------
-- Printed instances
-- ---------------------------------------------------------------------------

/-- All entries are signed words. -/
def Storable (q : Assignment) : Prop := ∀ x ∈ q.flow.toList ++ q.distance.toList, Signed.Fits x

instance (q : Assignment) : Decidable q.Storable :=
  inferInstanceAs (Decidable (∀ x ∈ q.flow.toList ++ q.distance.toList, Signed.Fits x))

/-- The text consists of the numerals of the size and of the entries of both matrices, row by row,
set apart by blanks. -/
def Prints (q : Assignment) (text : String) : Prop :=
  Text.Spaced (((q.size : Int) :: (q.flow.toList ++ q.distance.toList)).map Text.decimal)
    text.toList

theorem Prints.words_eq (h : q.Prints text) :
    Text.words text.toList =
      ((q.size : Int) :: (q.flow.toList ++ q.distance.toList)).map Text.decimal := by
  refine Text.words_of_spaced h fun word hWord => ?_
  obtain ⟨x, -, rfl⟩ := List.mem_map.mp hWord
  exact Text.isWord_decimal x

/-- A text in memory has room for the entries of both matrices. -/
theorem Prints.entries_lt (h : q.Prints text) (hSquare : q.Square) :
    2 * q.size * q.size < text.length := by
  have hCount := congrArg List.length h.words_eq
  have hWords := Text.length_words_le text.toList
  have hEntries := (halved_of_square hSquare).1
  simp only [List.length_map, List.length_cons, String.length_toList] at hCount hWords
  omega

/-- The numerals of entries are read back. -/
theorem signed?_map_decimal {entries : List Int} (h : ∀ x ∈ entries, Signed.Fits x) :
    (entries.map Text.decimal).map Text.signed? = entries.map some := by
  rw [List.map_map]
  exact List.map_congr_left fun x hx => Text.signed?_decimal (h x hx)

/-- A printed instance is listed by its text. -/
theorem lists_of_prints (hSquare : q.Square) (hStorable : q.Storable)
    (hLength : text.length < Word.size) (h : q.Prints text) :
    Lists text q.size (q.flow.toList ++ q.distance.toList) := by
  have hSize : q.size < Word.size := by
    have hEntries := h.entries_lt hSquare
    rcases Nat.eq_zero_or_pos q.size with hZero | hPositive
    · rw [hZero]
      decide
    · have hLess : q.size ≤ 2 * q.size * q.size := Nat.le_mul_of_pos_left _ (by omega)
      omega
  exact ⟨_, _, h.words_eq, Text.unsigned?_decimal hSize, signed?_map_decimal hStorable⟩

-- ---------------------------------------------------------------------------
-- Costs
-- ---------------------------------------------------------------------------

/-- The products of the double sum, row by row. -/
def costTerms (q : Assignment) (p : Permutation) : List Int :=
  (List.range q.size).flatMap fun i =>
    (List.range q.size).map fun j => q.flowOf i j * q.distanceOf p.values i j

/-- Neither a product nor a sum of the first products leaves the signed words. -/
def CostFits (q : Assignment) (p : Permutation) : Prop :=
  Signed.RunningSumsFit 0 (q.costTerms p)

theorem sum_costTerms (q : Assignment) (p : Permutation) :
    (q.costTerms p).sum = total q.size q.flowOf (q.distanceOf p.values) := by
  unfold costTerms total
  rw [List.flatMap_def, List.sum_flatten, List.map_map]
  rfl

/-- The cost is computed product by product. -/
theorem costTerm_eq (hSquare : q.Square) (hp : p.size = q.size) :
    q.costTerm p.values = (q.costTerms p).foldl (fun sum t => sum + Signed.ofInt t) 0 := by
  unfold costTerm costTerms
  rw [List.foldl_flatMap]
  refine List.foldl_ext _ _ _ fun sum i hi => ?_
  rw [List.foldl_map]
  refine List.foldl_ext _ _ _ fun sum j hj => ?_
  have hFlow := flowAt_eq hSquare (List.mem_range.mp hi) (List.mem_range.mp hj)
  have hDistance := distanceAt_eq hSquare hp (List.mem_range.mp hi) (List.mem_range.mp hj)
  show sum + Signed.combine (· * ·) (q.flowAt i j) (q.distanceAt p.values i j) = _
  unfold Signed.combine
  rw [hFlow, hDistance]

/-- A cost is the double sum if it fits, and overflows otherwise. -/
theorem cost_cases (hSquare : q.Square) (hp : p.size = q.size) :
    (q.CostFits p →
      q.cost p.values = .ok (total q.size q.flowOf (q.distanceOf p.values))) ∧
    (¬ q.CostFits p → q.cost p.values = .error .overflow) := by
  have hSum := Signed.foldl_add_ofInt (q.costTerms p) (x := 0) (v := 0) rfl (by decide)
  rw [← costTerm_eq hSquare hp, Int.zero_add, sum_costTerms] at hSum
  exact hSum

/-- **Reading back a printed instance.** Any text in memory that prints an instance is read as this
instance, whatever blanks it uses. The cost of a solution is then the double sum over the printed
matrices if it can be computed in 64 bits, and an overflow otherwise. -/
theorem ofText_printed (hSquare : q.Square) (hStorable : q.Storable)
    (hLength : text.length < Word.size) (hPrints : q.Prints text) :
    ofText text = .ok q ∧ ∀ p : Permutation, p.size = q.size →
      (q.CostFits p → q.cost p.values = .ok (∑ i ∈ Finset.range q.size,
        ∑ j ∈ Finset.range q.size, q.flowOf i j * q.distanceOf p.values i j)) ∧
      (¬ q.CostFits p → q.cost p.values = .error .overflow) := by
  have hEntries := hPrints.entries_lt hSquare
  have hLists := lists_of_prints hSquare hStorable hLength hPrints
  exact ⟨ofText_eq_ok_iff.mpr ⟨hSquare, by omega, hLists⟩, fun p hp => cost_cases hSquare hp⟩

/-- A text whose words are the numerals prints them. -/
theorem prints_of_words (h : Text.words text.toList =
    ((q.size : Int) :: (q.flow.toList ++ q.distance.toList)).map Text.decimal) : q.Prints text := by
  unfold Prints
  rw [← h]
  exact Text.spaced_words text.toList

/-- Blanks of several kinds, in front and at the end too. The cost is `3 * 5 - 4 * 7`. -/
theorem ofText_printed_two_positions :
    let q : Assignment := ⟨2, #[0, 3, -4, 0], #[1, 5, 7, 0]⟩
    let text := "\r\n 2\t0 3\u00a0-4 0 \n\n1\u30005 7\u20030\n "
    q.Square ∧ q.Storable ∧ text.length < Word.size ∧ q.Prints text ∧ ofText text = .ok q ∧
      q.CostFits (.identity 2) ∧ q.cost (Permutation.identity 2).values = .ok (-13) := by
  intro q text
  have hSquare : q.Square := ⟨rfl, rfl⟩
  have hStorable : q.Storable := by decide
  have hLength : text.length < Word.size := by decide
  have hPrints : q.Prints text := prints_of_words (by decide +kernel)
  obtain ⟨hRead, hCosts⟩ := ofText_printed hSquare hStorable hLength hPrints
  obtain ⟨-, hOverflow⟩ := hCosts (.identity 2) rfl
  have hCost : q.cost (Permutation.identity 2).values = .ok (-13) := by decide +kernel
  have hFits : q.CostFits (.identity 2) := by
    by_contra hNot
    exact nomatch hCost.symm.trans (hOverflow hNot)
  exact ⟨hSquare, hStorable, hLength, hPrints, hRead, hFits, hCost⟩

/-- The sum of the first two products leaves the signed words, although the whole sum is zero. -/
theorem printed_cost_overflows :
    let q : Assignment := ⟨2, #[9223372036854775807, 9223372036854775807, -9223372036854775807,
      -9223372036854775807], #[1, 1, 1, 1]⟩
    let text := "2 9223372036854775807 9223372036854775807 -9223372036854775807 " ++
      "-9223372036854775807 1 1 1 1"
    q.Square ∧ q.Storable ∧ text.length < Word.size ∧ q.Prints text ∧ ofText text = .ok q ∧
      total 2 q.flowOf (q.distanceOf (Permutation.identity 2).values) = 0 ∧
      q.cost (Permutation.identity 2).values = .error .overflow ∧
      q.cost (Permutation.identity 2).values ≠
        .ok (total 2 q.flowOf (q.distanceOf (Permutation.identity 2).values)) := by
  intro q text
  have hCost : q.cost (Permutation.identity 2).values = .error .overflow := by decide +kernel
  refine ⟨⟨rfl, rfl⟩, by decide, by decide, prints_of_words (by decide +kernel),
    by decide +kernel, by decide +kernel, hCost, fun h => ?_⟩
  exact nomatch hCost.symm.trans h

end SwapSearch.Assignment
