import Mathlib.Algebra.BigOperators.Ring.Finset
import Mathlib.Logic.Equiv.Basic
import Mathlib.Tactic.Ring

/-!
# SwapSearch — exchanging two positions in a double sum

The cost of an assignment is a double sum `∑ i j, a i j * b i j`, where `b` is the
distance between the items at two positions. Exchanging two positions permutes the
arguments of `b`, so the formulas of the program are statements about integer
matrices: what the exchange adds to the sum, and how that amount changes when two
other positions have been exchanged before.

Both proofs split the sums at the two exchanged positions (`sum_split`) and compare
what is left term by term.

## Results

* `change_eq`      — the change of the sum is one row and one column.
* `change_exchange` — another exchange shifts the change by eight entries of each matrix.
-/

namespace SwapSearch.Exchange

open Finset

/-- The double sum over `n` positions. -/
def total (n : Nat) (a b : Nat → Nat → Int) : Int :=
  ∑ i ∈ range n, ∑ j ∈ range n, a i j * b i j

/-- The matrix after positions `i` and `j` have been exchanged. -/
def exchanged (i j : Nat) (b : Nat → Nat → Int) (k l : Nat) : Int :=
  b (Equiv.swap i j k) (Equiv.swap i j l)

/-- What position `k` contributes to the change when `i` and `j` are exchanged. -/
def term (a b : Nat → Nat → Int) (i j k : Nat) : Int :=
  (a k i - a k j) * (b k j - b k i) + (a i k - a j k) * (b j k - b i k)

/-- The change of the double sum when positions `i` and `j` are exchanged. -/
def change (n : Nat) (a b : Nat → Nat → Int) (i j : Nat) : Int :=
  (a i i - a j j) * (b j j - b i i) + (a i j - a j i) * (b j i - b i j) +
    ∑ k ∈ (range n \ {i, j}), term a b i j k

/-- By how much the change for `i` and `j` differs once `r` and `s` have been exchanged, which
led to `b`. -/
def shift (a b : Nat → Nat → Int) (i j r s : Nat) : Int :=
  (a r i - a r j + a s j - a s i) * (b s i - b s j + b r j - b r i) +
    (a i r - a j r + a j s - a i s) * (b i s - b j s + b j r - b i r)

theorem sum_split {s : Finset Nat} {i j : Nat} (hNe : i ≠ j) (hi : i ∈ s) (hj : j ∈ s)
    (f : Nat → Int) : ∑ k ∈ s, f k = f i + f j + ∑ k ∈ s \ {i, j}, f k := by
  have hSub : ({i, j} : Finset Nat) ⊆ s := by
    intro k hk
    rcases mem_insert.mp hk with rfl | hk
    · exact hi
    · rw [mem_singleton.mp hk]
      exact hj
  rw [← sum_sdiff hSub, sum_pair hNe, add_comm]

theorem not_mem_pair {s : Finset Nat} {i j k : Nat} (hk : k ∈ s \ {i, j}) : k ≠ i ∧ k ≠ j := by
  have hOut := (mem_sdiff.mp hk).2
  rw [mem_insert, mem_singleton, not_or] at hOut
  exact hOut

section Change

variable {n i j : Nat} (a b : Nat → Nat → Int)

/-- **The swap cost.** Exchanging two positions changes the sum by their row and column. -/
theorem change_eq (hNe : i ≠ j) (hi : i < n) (hj : j < n) :
    total n a (exchanged i j b) - total n a b = change n a b i j := by
  have hi' : i ∈ range n := mem_range.mpr hi
  have hj' : j ∈ range n := mem_range.mpr hj
  -- one row: only the columns of the pair and of the other positions it touches change
  have hRow : ∀ k, ∑ l ∈ range n, a k l * exchanged i j b k l - ∑ l ∈ range n, a k l * b k l =
      a k i * (b (Equiv.swap i j k) j - b k i) + a k j * (b (Equiv.swap i j k) i - b k j) +
        ∑ l ∈ range n \ {i, j}, a k l * (b (Equiv.swap i j k) l - b k l) := by
    intro k
    rw [← sum_sub_distrib, sum_split hNe hi' hj']
    have hRest : ∑ l ∈ range n \ {i, j}, (a k l * exchanged i j b k l - a k l * b k l) =
        ∑ l ∈ range n \ {i, j}, a k l * (b (Equiv.swap i j k) l - b k l) := by
      refine sum_congr rfl fun l hl => ?_
      obtain ⟨hli, hlj⟩ := not_mem_pair hl
      rw [exchanged, Equiv.swap_apply_of_ne_of_ne hli hlj, mul_sub]
    rw [hRest]
    simp only [exchanged, Equiv.swap_apply_left, Equiv.swap_apply_right]
    ring
  -- a row outside the pair keeps its own columns, and the two differences factor
  have hOutside : ∀ k ∈ range n \ {i, j},
      a k i * (b (Equiv.swap i j k) j - b k i) + a k j * (b (Equiv.swap i j k) i - b k j) +
        ∑ l ∈ range n \ {i, j}, a k l * (b (Equiv.swap i j k) l - b k l) =
      (a k i - a k j) * (b k j - b k i) := by
    intro k hk
    obtain ⟨hki, hkj⟩ := not_mem_pair hk
    simp only [Equiv.swap_apply_of_ne_of_ne hki hkj, sub_self, mul_zero, sum_const_zero]
    ring
  calc total n a (exchanged i j b) - total n a b
      = ∑ k ∈ range n, (∑ l ∈ range n, a k l * exchanged i j b k l -
          ∑ l ∈ range n, a k l * b k l) := by
        unfold total
        rw [sum_sub_distrib]
    _ = ∑ k ∈ range n,
          (a k i * (b (Equiv.swap i j k) j - b k i) + a k j * (b (Equiv.swap i j k) i - b k j) +
            ∑ l ∈ range n \ {i, j}, a k l * (b (Equiv.swap i j k) l - b k l)) :=
        sum_congr rfl fun k _ => hRow k
    -- the rows of the pair are what is left over, and their terms are collected
    _ = change n a b i j := by
        rw [sum_split hNe hi' hj', sum_congr rfl hOutside]
        simp only [Equiv.swap_apply_left, Equiv.swap_apply_right, change, term,
          sum_add_distrib, sub_mul, sum_sub_distrib, mul_sub]
        ring

/-- **Taillard's rule.** After an exchange of `r` and `s`, the change for a pair without a
position in common is shifted. -/
theorem change_exchange {r s : Nat} (hNe : r ≠ s) (hr : r < n) (hs : s < n)
    (hir : i ≠ r) (his : i ≠ s) (hjr : j ≠ r) (hjs : j ≠ s) :
    change n a (exchanged r s b) i j =
      change n a b i j + shift a (exchanged r s b) i j r s := by
  have hFix : ∀ {k}, k ≠ r → k ≠ s → Equiv.swap r s k = k :=
    fun hkr hks => Equiv.swap_apply_of_ne_of_ne hkr hks
  -- the exchanged positions are among those both sums run over
  have hr' : r ∈ range n \ {i, j} := by
    simp [hr, hir.symm, hjr.symm]
  have hs' : s ∈ range n \ {i, j} := by
    simp [hs, his.symm, hjs.symm]
  -- a position apart from all four contributes the same before and after
  have hRest : ∑ k ∈ (range n \ {i, j}) \ {r, s}, term a (exchanged r s b) i j k =
      ∑ k ∈ (range n \ {i, j}) \ {r, s}, term a b i j k := by
    refine sum_congr rfl fun k hk => ?_
    obtain ⟨hkr, hks⟩ := not_mem_pair hk
    simp only [term, exchanged, hFix hkr hks, hFix hir his, hFix hjr hjs]
  unfold change
  rw [sum_split hNe hr' hs', sum_split hNe hr' hs', hRest]
  simp only [term, shift, exchanged, hFix hir his, hFix hjr hjs, Equiv.swap_apply_left,
    Equiv.swap_apply_right]
  ring

end Change

end SwapSearch.Exchange
