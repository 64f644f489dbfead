/-!
# SwapSearch — scalars

Objective values, gains, weights and temperatures are *scalars*. Everything that
computes with them is written once, over the interface `Scalar`, so that the
same definitions run at binary floating point and can be read in exact
arithmetic, where the interface is filled with an ordered field.

The interface names exactly the operations the search performs. It promises no
laws: floating point keeps none of the laws of a field, and the order of every
sum and product below is part of what the definitions say.

* `Graded` — what ranking needs: `<` and a total order that also places values
  which `<` leaves unrelated.
* `Scalar` — arithmetic, comparison, rounding and the three transcendental
  functions of the annealing ramp.
-/

namespace SwapSearch

/-- Values that can be ranked. `<` decides who is better; `totalLt` is a strict
total order, used where some member has to be called the worst. -/
class Graded (α : Type) extends LT α where
  decLt : DecidableLT α
  totalLt : α → α → Bool

instance Graded.decidableLT {α : Type} [Graded α] : DecidableLT α := Graded.decLt

/-- The numbers the search computes with. -/
class Scalar (α : Type) extends Graded α, LE α, BEq α, Zero α, One α, Add α, Sub α, Mul α, Div α,
    Neg α, NatCast α, IntCast α, OfScientific α where
  decLe : DecidableLE α
  /-- Lies above every value an objective may return. -/
  posInf : α
  /-- Lies below every value an objective may return. -/
  negInf : α
  isFinite : α → Bool
  ceil : α → α
  /-- Nearest integer, halves away from zero. -/
  round : α → α
  /-- Truncation toward zero into an unsigned 64-bit word. What is too large becomes the
  largest word; what is negative or not a number becomes zero. -/
  toWord : α → Nat
  exp : α → α
  log : α → α
  pow : α → α → α

instance Scalar.decidableLE {α : Type} [Scalar α] : DecidableLE α := Scalar.decLe

namespace Scalar

variable {α : Type} [Scalar α]

/-- Two values that differ by no more than this count as equal. -/
def tolerance : α := 1e-7

/-- `a` beats `b` when it is larger by more than the tolerance. -/
def beats (a b : α) : Bool := b + tolerance < a

/-- `a` reaches the target `t`, up to the tolerance. -/
def reaches (a t : α) : Bool := t - tolerance ≤ a

/-- A value that differs from itself is not a number. -/
def isNaN (a : α) : Bool := !(a == a)

/-- The larger of the two. What is not a number loses against anything else, and of two
equal values the second is taken. -/
def larger (a b : α) : α := if isNaN a ∨ a ≤ b then b else a

/-- The smaller of the two, with the same rules as `larger`. -/
def smaller (a b : α) : α := if isNaN a ∨ b ≤ a then b else a

/-- Moves `x` into `[lo, hi]`; what is not a number stays so. -/
def clamp (lo hi x : α) : α := if x < lo then lo else if hi < x then hi else x

/-- Sum from left to right, starting at negative zero, which is neutral also for `-0`. -/
def sum (xs : List α) : α := xs.foldl (· + ·) (-0)

/-- Both lists have the same length and equal entries. -/
def sameVector (xs ys : List α) : Bool := xs == ys

/-- The mean of a vector. -/
def mean (xs : List α) : α := sum xs / (xs.length : α)

end Scalar

end SwapSearch
