import SwapSearch.Scalar
import SwapSearch.Word

/-!
# SwapSearch — numerals of stored values

A stored number is kept as it is written until it is known what it stands for. Read
as a *word* it has to be a plain unsigned integer. Read as a *scalar* it may have a
sign, a fraction and an exponent.

All digits of a scalar count, however many there are: the point is moved behind the
last of them, and the integer that they then form times a power of ten is rounded
once. A number too large for a finite scalar is none; one too small is a zero, which
keeps the sign.
-/

namespace SwapSearch.Json

/-- A decimal numeral, digit by digit. A fraction or an exponent that is present has at least
one digit. -/
structure Numeral where
  isNegative : Bool
  whole : List Nat
  fraction : List Nat
  /-- Whether the exponent is negative, and its digits. -/
  exponent : Option (Bool × List Nat)
  deriving DecidableEq, Repr

namespace Numeral

/-- The number that decimal digits stand for. -/
def ofDigits (digits : List Nat) : Nat := digits.foldl (fun n d => 10 * n + d) 0

/-- The unsigned word that the numeral is, if it is written as one. -/
def word? (n : Numeral) : Option Nat :=
  if n.isNegative || !n.fraction.isEmpty || n.exponent.isSome then none
  else
    let value := ofDigits n.whole
    if value < Word.size then some value else none

/-- The exponent as written. -/
def power (n : Numeral) : Int :=
  match n.exponent with
  | none => 0
  | some (true, digits) => -(ofDigits digits : Int)
  | some (false, digits) => ofDigits digits

/-- All digits, as if there were no point. -/
def significand (n : Numeral) : Nat := ofDigits (n.whole ++ n.fraction)

/-- The power of ten by which the significand is multiplied. -/
def scale (n : Numeral) : Int := n.power - n.fraction.length

variable {α : Type} [Scalar α]

/-- The scalar next to `significand * 10 ^ scale`, with the sign of the numeral. -/
def scalar? (n : Numeral) : Option α :=
  let x : α := OfScientific.ofScientific n.significand (n.scale < 0) n.scale.natAbs
  if Scalar.isFinite x then some (if n.isNegative then -x else x) else none

end Numeral

end SwapSearch.Json
