import SwapSearch.Random.Source

/-!
# SwapSearch — samples

A *sample* is a choice of distinct indices in random order. How it is drawn depends
on how many there are to choose from, because the cheapest method does:

* `floyd` draws one index a step from a range that grows by one each step, and looks
  through the indices picked so far. Good for few indices.
* `inPlace` shuffles the beginning of the whole range. Good for dense samples.
* `rejection` draws from the whole range until the index is new. Good for sparse
  samples of many indices.
-/

namespace SwapSearch.Random

/-- A way to draw a sample. -/
inductive SampleMethod where
  | floyd
  | inPlace
  | rejection
  deriving DecidableEq, Repr

/-- The method for `amount` of `length` indices, weighed in single precision. Up to 162 indices
are shuffled in place if `length` lies below a parabola in `amount`, but never fewer than twelve;
more of them if `length` is below a multiple of `amount`, a smaller one for long ranges. -/
def SampleMethod.choose (length amount : Nat) : SampleMethod :=
  let l : Float32 := Float32.ofNat length
  let a : Float32 := Float32.ofNat amount
  if amount < 163 then
    if 11 < amount && l < (10.0 + 1.6 * a) * a then .inPlace else .floyd
  else
    let ratio : Float32 := if length < 500000 then 270.0 else 330.0 / 9.0
    if l < ratio * a then .inPlace else .rejection

variable {ρ : Type} [RandomSource ρ]

-- ---------------------------------------------------------------------------
-- Few indices, dense samples
-- ---------------------------------------------------------------------------

/-- Floyd's method, for `count` further indices: draw at or below `j`; when the index is taken
already, `j` takes its place and the drawn index comes last. -/
def sampleFloyd : (count j : Nat) → Array Nat → ρ → Array Nat × ρ
  | 0, _, picked, r => (picked, r)
  | count + 1, j, picked, r =>
    let (t, r) := below (j + 1) r
    let picked :=
      match picked.idxOf? t with
      | some k => picked.setIfInBounds k j
      | none => picked
    sampleFloyd count (j + 1) (picked.push t) r

/-- Exchanges each of the `count` entries from position `i` on with a drawn entry at or after
it. -/
def drawForward : (count i : Nat) → Array Nat → ρ → Array Nat × ρ
  | 0, _, xs, r => (xs, r)
  | count + 1, i, xs, r =>
    let (offset, r) := below (xs.size - i) r
    drawForward count (i + 1) (xs.swapIfInBounds i (i + offset)) r

-- ---------------------------------------------------------------------------
-- Sparse samples
-- ---------------------------------------------------------------------------

/-- The index below `range` that a 32-bit word stands for. As many words are refused as are left
over when each index gets equally many. -/
def fairIndex? (range word : Nat) : Option Nat :=
  let (index, low) := scaled Word.halfSize word range
  if low < Word.halfSize % range then none else some index

/-- Draws words until one stands for an index without a mark, which is what the index then is.
Should all of the `fuel` words be refused, it is the first one without a mark. -/
def drawUnmarked (marks : Array Bool) : (fuel : Nat) → ρ → Nat × ρ
  | 0, r => ((marks.idxOf? false).getD 0, r)
  | fuel + 1, r =>
    let (word, r) := RandomSource.next32 r
    match fairIndex? marks.size word.toNat with
    | some index => if marks.getD index true then drawUnmarked marks fuel r else (index, r)
    | none => drawUnmarked marks fuel r

/-- Draws `count` further indices and marks each of them. Of a sparse sample most indices stay
without a mark, so a source would have to repeat itself to use up `2 ^ 32` words for one index. -/
def sampleUnmarked : (count : Nat) → (marks : Array Bool) → Array Nat → ρ → Array Nat × ρ
  | 0, _, picked, r => (picked, r)
  | count + 1, marks, picked, r =>
    let (index, r) := drawUnmarked marks Word.halfSize r
    sampleUnmarked count (marks.setIfInBounds index true) (picked.push index) r

-- ---------------------------------------------------------------------------
-- All samples
-- ---------------------------------------------------------------------------

/-- `amount ≤ length` distinct indices below `length`, in random order. -/
def sample (length amount : Nat) (r : ρ) : Array Nat × ρ :=
  match SampleMethod.choose length amount with
  | .floyd => sampleFloyd amount (length - amount) #[] r
  | .inPlace =>
    let (xs, r) := drawForward amount 0 (Array.range length) r
    (xs.take amount, r)
  | .rejection => sampleUnmarked amount (Array.replicate length false) #[] r

end SwapSearch.Random
