import SwapSearch.Word

/-!
# SwapSearch — numerals

Decimal numerals as instance texts write them: an optional sign, then one or more
ASCII digits and nothing else. An unsigned numeral has no minus sign, not even
before zero. A numeral outside the range of its word is none.
-/

namespace SwapSearch.Text

/-- The value of an ASCII digit. -/
def digit? (c : Char) : Option Nat :=
  if '0' ≤ c ∧ c ≤ '9' then some (c.toNat - '0'.toNat) else none

/-- Reads further digits after a number that ended in `value`. -/
def digitsFrom (value : Nat) : List Char → Option Nat
  | [] => some value
  | c :: rest =>
    match digit? c with
    | some d => digitsFrom (10 * value + d) rest
    | none => none

/-- One or more digits. -/
def natural? : List Char → Option Nat
  | [] => none
  | cs => digitsFrom 0 cs

/-- An unsigned word. -/
def unsigned? (cs : List Char) : Option Nat := do
  let n ← match cs with
    | '+' :: rest => natural? rest
    | _ => natural? cs
  if n < Word.size then some n else none

/-- A signed word. -/
def signed? (cs : List Char) : Option Int := do
  let x : Int ← match cs with
    | '+' :: rest => (natural? rest).map Int.ofNat
    | '-' :: rest => (natural? rest).map fun n => -(n : Int)
    | _ => (natural? cs).map Int.ofNat
  if Signed.Fits x then some x else none

end SwapSearch.Text
