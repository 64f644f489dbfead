import SwapSearch.Scalar
import SwapSearch.Word

/-!
# SwapSearch — random sources and draws

A *random source* is a state that hands out words: 32 bits or 64 bits at a time,
each with the state after it. Nothing else is random, so a search is a function
of its source, and a statement about "every random source" is a statement about
every instance of `RandomSource`.

Draws turn words into what the search asks for:

* `below n` — an index below `n`;
* `unit` — a scalar in `[0, 1)`;
* `between lo hi` — a scalar of a closed range;
* `coin` — a fair choice.
-/

namespace SwapSearch

/-- A state that hands out random words. -/
class RandomSource (ρ : Type) where
  next32 : ρ → UInt32 × ρ
  next64 : ρ → UInt64 × ρ

namespace Random

variable {ρ : Type} [RandomSource ρ] {α : Type} [Scalar α]

/-- Maps the word `x` of `w` values (`w` a power of two) onto `range` values: the high part of
`x * range` is the answer, the low part is what rounding left over. -/
def scaled (w x range : Nat) : Nat × Nat := (x * range / w, x * range % w)

/-- An index below `range ≤ w` from one of the `w` words that `draw` hands out. When the rounding
error of that word could matter, the high part of a second word is added to decide it. -/
def indexFrom {w : Nat} (draw : ρ → Fin w × ρ) (range : Nat) (r : ρ) : Nat × ρ :=
  let (x, r) := draw r
  let (index, low) := scaled w x range
  if w - range < low then
    let (y, r) := draw r
    let (carry, _) := scaled w y range
    if w ≤ low + carry then (index + 1, r) else (index, r)
  else (index, r)

/-- The next 32-bit word as a number. -/
def draw32 (r : ρ) : Fin Word.halfSize × ρ :=
  let (x, r) := RandomSource.next32 r
  (x.toFin, r)

/-- The next 64-bit word as a number. -/
def draw64 (r : ρ) : Fin Word.size × ρ :=
  let (x, r) := RandomSource.next64 r
  (x.toFin, r)

/-- An index below `range`, which must be positive, from 32-bit words if these are enough. A word is
drawn even when there is no choice. -/
def below (range : Nat) (r : ρ) : Nat × ρ :=
  if range ≤ Word.halfSize then indexFrom draw32 range r else indexFrom draw64 range r

/-- A scalar in `[0, 1)` with 53 random bits: the high bits of a word over `2 ^ 53`. -/
def unit (r : ρ) : α × ρ :=
  let (x, r) := RandomSource.next64 r
  (((x.toNat / 2048 : Nat) : α) / ((9007199254740992 : Nat) : α), r)

/-- True with probability one half. -/
def coin (r : ρ) : Bool × ρ :=
  let (x, r) := RandomSource.next64 r
  (x < 0x8000000000000000, r)

/-- A scalar in `[lo, hi]`, from the 52 high bits of a word. The ends must be ordered, and they and
their distance finite. -/
def between (lo hi : α) (r : ρ) : Except Breach (α × ρ) :=
  if lo ≤ hi && Scalar.isFinite lo && Scalar.isFinite hi && Scalar.isFinite (hi - lo) then
    let (x, r) := RandomSource.next64 r
    let fraction : α := ((x.toNat / 4096 : Nat) : α) / ((4503599627370496 : Nat) : α)
    .ok (fraction * (hi - lo) + lo, r)
  else .error .emptyRange

end Random

end SwapSearch
