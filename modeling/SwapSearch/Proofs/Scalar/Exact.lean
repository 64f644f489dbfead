import Mathlib.Analysis.SpecialFunctions.Pow.Real
import SwapSearch.Proofs.Scalar.Order
import SwapSearch.Word

/-!
# SwapSearch — exact arithmetic

Read in exact arithmetic, the scalars are an ordered field: sums and products are
not rounded, every value is finite, and a literal means the rational number it
spells. Rounding to integers and the transcendental functions only steer
decisions, so nothing is asked of them.

* `ExactScalar` — such scalars.
* `RankedScalar` — scalars that are ranked as they are ordered, which exact arithmetic
  leaves open.
* `exactReal` — the real numbers, with their own exponential, logarithm and power.
* `exactRational` — the rational numbers, on which a search can be evaluated. They
  have no transcendental functions; what stands in for them are polynomials.

## Results

* `tolerance_nonneg`, `tolerance_lt_one` — the tolerance lies in `[0, 1)`.
* `lt_of_beats`                          — what beats a value lies above it.
* `le_of_not_beats`                      — what does not beat a value lies at most the tolerance
  above.
-/

namespace SwapSearch

/-- Scalars that compute as an ordered field does. -/
class ExactScalar (α : Type) extends Scalar α, Field α, LinearOrder α, IsStrictOrderedRing α where
  beq_iff_eq : ∀ a b : α, (a == b) = true ↔ a = b
  isFinite_eq_true : ∀ a : α, Scalar.isFinite a = true
  ofScientific_eq : ∀ (m : Nat) (s : Bool) (e : Nat),
    (OfScientific.ofScientific m s e : α) = (Rat.ofScientific m s e : ℚ)

/-- Numbers are ranked as they are ordered. -/
class RankedScalar (α : Type) [Scalar α] : Prop where
  le_of_totalLt : ∀ {a b : α}, Scalar.isNaN a = false → Scalar.isNaN b = false →
    Graded.totalLt a b = true → a ≤ b
  le_of_not_totalLt : ∀ {a b : α}, Scalar.isNaN a = false → Scalar.isNaN b = false →
    Graded.totalLt a b = false → b ≤ a

namespace ExactScalar

variable {α : Type} [ExactScalar α]

instance orderedScalar : OrderedScalar α where
  le_trans := fun hab hbc => hab.trans hbc
  le_total := fun _ _ => LinearOrder.le_total _ _
  lt_iff_le_not_le := lt_iff_le_not_ge
  beq_iff_le_le := by
    intro a b
    rw [beq_iff_eq]
    exact le_antisymm_iff
  isNaN_of_isFinite := by
    intro a _
    simp [Scalar.isNaN, (beq_iff_eq a a).mpr rfl]

theorem tolerance_nonneg : (0 : α) ≤ Scalar.tolerance := by
  have h : (0 : ℚ) ≤ Rat.ofScientific 1 true 7 := by decide +kernel
  unfold Scalar.tolerance
  rw [ofScientific_eq]
  exact_mod_cast h

theorem tolerance_lt_one : (Scalar.tolerance : α) < 1 := by
  have h : (Rat.ofScientific 1 true 7 : ℚ) < 1 := by decide +kernel
  unfold Scalar.tolerance
  rw [ofScientific_eq]
  exact_mod_cast h

theorem lt_of_beats {a b : α} (h : Scalar.beats a b = true) : b < a := by
  have hBeats : b + Scalar.tolerance < a := of_decide_eq_true h
  have := tolerance_nonneg (α := α)
  linarith

theorem le_of_not_beats {a b : α} (h : Scalar.beats a b = false) :
    a - Scalar.tolerance ≤ b := by
  have hNot : ¬ b + Scalar.tolerance < a := of_decide_eq_false h
  linarith

end ExactScalar

-- ---------------------------------------------------------------------------
-- Instances
-- ---------------------------------------------------------------------------

section Instances

variable {α : Type} [Field α] [LinearOrder α] [FloorRing α]

/-- The nearest integer, halves away from zero. -/
def roundAway (x : α) : α := if x < 0 then -(round (-x) : α) else (round x : α)

/-- Truncation into a 64-bit word. -/
def truncated (x : α) : Nat := Word.saturated ⌊x⌋₊

theorem monotone_truncated [IsStrictOrderedRing α] : Monotone (truncated : α → Nat) :=
  fun _ _ hLe => min_le_min (Nat.floor_mono hLe) le_rfl

/-- What stands for infinity, which a field does not have: it lies beyond every finite binary64
number. -/
def beyond : α := ((2 ^ 1024 : Nat) : α)

end Instances

noncomputable instance exactReal : ExactScalar ℝ where
  decLt := inferInstance
  totalLt x y := decide (x < y)
  beq x y := decide (x = y)
  decLe := inferInstance
  ofScientific m s e := OfScientific.ofScientific m s e
  posInf := beyond
  negInf := -beyond
  isFinite _ := true
  ceil x := ⌈x⌉
  round := roundAway
  toWord := truncated
  exp := Real.exp
  log := Real.log
  pow := (· ^ ·)
  __ := (inferInstance : Field ℝ)
  __ := (inferInstance : LinearOrder ℝ)
  __ := (inferInstance : IsStrictOrderedRing ℝ)
  beq_iff_eq _ _ := decide_eq_true_iff
  isFinite_eq_true _ := rfl
  ofScientific_eq _ _ _ := rfl

instance exactRational : ExactScalar ℚ where
  decLt := inferInstance
  totalLt x y := decide (x < y)
  beq x y := decide (x = y)
  decLe := inferInstance
  ofScientific m s e := Rat.ofScientific m s e
  posInf := beyond
  negInf := -beyond
  isFinite _ := true
  ceil x := ⌈x⌉
  round := roundAway
  toWord := truncated
  exp x := 1 + x
  log x := x - 1
  pow x y := 1 + y * (x - 1)
  __ := (inferInstance : Field ℚ)
  __ := (inferInstance : LinearOrder ℚ)
  __ := (inferInstance : IsStrictOrderedRing ℚ)
  beq_iff_eq _ _ := decide_eq_true_iff
  isFinite_eq_true _ := rfl
  ofScientific_eq _ _ _ := rfl

instance rankedReal : RankedScalar ℝ where
  le_of_totalLt _ _ h := (of_decide_eq_true h).le
  le_of_not_totalLt _ _ h := not_lt.mp (of_decide_eq_false h)

instance rankedRational : RankedScalar ℚ where
  le_of_totalLt _ _ h := (of_decide_eq_true h).le
  le_of_not_totalLt _ _ h := not_lt.mp (of_decide_eq_false h)

end SwapSearch
