import SwapSearch.Failure

/-!
# SwapSearch — machine words

Counters and indices are unsigned 64-bit words, matrix entries and assignment
costs signed ones. They are kept as `Nat` and `Int`, and every operation that
could leave the range says what happens there:

* `Word.checked` fails with `Breach.overflow`;
* `Word.saturated` stays at the largest word;
* `Word.remainder` fails with `Breach.divisionByZero`, and `Word.bit` with an overflow
  if the bit would be shifted out;
* `Signed` is a signed 64-bit computation, in which every intermediate result
  must fit. Formulas over `Signed` are written with the usual operators, and a
  formula that succeeds has the value it would have over the integers.

`Word.reserve` is the one limit on memory: a table must fit into the address
space, which is one bit smaller than a word.
-/

namespace SwapSearch

namespace Word

/-- Number of unsigned words, `2 ^ 64`. -/
def size : Nat := 18446744073709551616

/-- Number of unsigned words of half the length, `2 ^ 32`. -/
def halfSize : Nat := 4294967296

/-- The largest unsigned word. -/
def largest : Nat := size - 1

/-- A word, or overflow. -/
def checked (n : Nat) : Except Breach Nat :=
  if n < size then .ok n else .error .overflow

/-- A word; what is too large becomes the largest one. -/
def saturated (n : Nat) : Nat := min n largest

/-- The remainder of a division. -/
def remainder (n divisor : Nat) : Except Breach Nat :=
  if divisor = 0 then .error .divisionByZero else .ok (n % divisor)

/-- The word in which only bit `k` is set. -/
def bit (k : Nat) : Except Breach Nat :=
  if k < 64 then .ok (1 <<< k) else .error .overflow

/-- Number of bytes that can be addressed, `2 ^ 63`. -/
def addressable : Nat := 9223372036854775808

/-- Room for `count` cells of `bytes` bytes each. -/
def reserve (count bytes : Nat) : Except Breach Unit :=
  if count * bytes < addressable then .ok () else .error .capacity

end Word

/-- A signed 64-bit computation: its result, or the overflow it ran into. -/
structure Signed where
  result : Except Breach Int

namespace Signed

/-- The integer fits into a signed word: it lies in `[-2 ^ 63, 2 ^ 63)`. -/
def Fits (x : Int) : Prop := -9223372036854775808 ≤ x ∧ x < 9223372036854775808

instance Fits.decidable (x : Int) : Decidable (Fits x) := inferInstanceAs (Decidable (_ ∧ _))

def ofInt (x : Int) : Signed := ⟨if Fits x then .ok x else .error .overflow⟩

/-- Combines two results and checks the outcome. -/
def combine (f : Int → Int → Int) (x y : Signed) : Signed :=
  match x.result, y.result with
  | .ok a, .ok b => ofInt (f a b)
  | .error e, _ => ⟨.error e⟩
  | .ok _, .error e => ⟨.error e⟩

instance : Add Signed := ⟨combine (· + ·)⟩
instance : Sub Signed := ⟨combine (· - ·)⟩
instance : Mul Signed := ⟨combine (· * ·)⟩

instance : OfNat Signed 0 := ⟨ofInt 0⟩

end Signed

end SwapSearch
