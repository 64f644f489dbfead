import SwapSearch.Random.Source
import SwapSearch.Permutation

/-!
# SwapSearch — shuffles and samples

A shuffle is a sequence of exchanges: entry `i` is exchanged with a drawn entry
at or before it, for increasing `i`. A *partial* shuffle does this only for the
last entries, so that the tail it returns holds randomly chosen distinct entries
in random order.

Consecutive draws `below (n+1), below (n+2), …` are cut from one word as long as
the product of their ranges fits into 32 bits; `IndexBatch` keeps what is left of
the current word.
-/

namespace SwapSearch.Random

variable {ρ : Type} [RandomSource ρ] {β : Type}

/-- A run of draws with ranges `bound + 1, bound + 2, …` that share one word: `chunk` is the
part of the word not used yet, good for `remaining` further draws. -/
structure IndexBatch where
  bound : Nat
  chunk : Nat
  remaining : Nat

namespace IndexBatch

/-- Multiplies `product` by `next, next + 1, …` while it stays a 32-bit number, and counts the
factors. Each factor is at least two, so `fuel = 32` leaves none out. -/
def extend : (fuel product next count : Nat) → Nat × Nat
  | 0, product, _, count => (product, count)
  | fuel + 1, product, next, count =>
    if product * next < Word.halfSize then extend fuel (product * next) (next + 1) (count + 1)
    else (product, count)

/-- The longest product `k * (k+1) * ⋯` below `2^32`, and its number of factors. -/
def rangeProduct (k : Nat) : Nat × Nat := extend 32 k (k + 1) 1

/-- The first draw for an entry with no entry before it has one possible outcome. -/
def start (bound : Nat) : IndexBatch := ⟨bound, 0, if bound = 0 then 1 else 0⟩

/-- The next index, below `bound + 1`. -/
def next (batch : IndexBatch) (r : ρ) : Nat × IndexBatch × ρ :=
  let k := batch.bound + 1
  let (chunk, remaining, r) :=
    match batch.remaining with
    | 0 =>
      let (product, count) := rangeProduct k
      let (chunk, r) := below product r
      (chunk, count - 1, r)
    | remaining + 1 => (batch.chunk, remaining, r)
  if remaining = 0 then (chunk, ⟨k, chunk, 0⟩, r)
  else (chunk % k, ⟨k, chunk / k, remaining⟩, r)

end IndexBatch

/-- Exchanges each of the `count` entries from position `i` on with a drawn entry at or before
it. -/
def exchangeFrom : (count i : Nat) → Array β → IndexBatch → ρ → Array β × ρ
  | 0, _, xs, _, r => (xs, r)
  | count + 1, i, xs, batch, r =>
    let (j, batch, r) := batch.next r
    exchangeFrom count (i + 1) (xs.swapIfInBounds i j) batch r

/-- Shuffles so that the last `amount` entries are a random choice in random order. -/
def partialShuffle (amount : Nat) (xs : Array β) (r : ρ) : Array β × ρ :=
  let start := xs.size - amount
  exchangeFrom (xs.size - start) start xs (.start start) r

/-- Shuffles all entries. -/
def shuffle (xs : Array β) (r : ρ) : Array β × ρ := partialShuffle xs.size xs r

end Random

-- ---------------------------------------------------------------------------
-- Random permutations
-- ---------------------------------------------------------------------------

namespace Random

variable {ρ : Type} [RandomSource ρ] {β : Type}

/-- What every exchange keeps, a sequence of exchanges keeps. -/
theorem exchangeFrom_keeps {P : Array β → Prop}
    (hSwap : ∀ xs i j, P xs → P (xs.swapIfInBounds i j)) (count i : Nat) (xs : Array β)
    (batch : IndexBatch) (r : ρ) (h : P xs) : P (exchangeFrom count i xs batch r).1 := by
  induction count generalizing i xs batch r with
  | zero => exact h
  | succ count ih => exact ih _ _ _ _ (hSwap _ _ _ h)

theorem isPermutation_shuffle {xs : Array Nat} (h : IsPermutation xs) (r : ρ) :
    IsPermutation (shuffle xs r).1 :=
  exchangeFrom_keeps (fun _ i j hx => hx.swapIfInBounds i j) _ _ _ _ _ h

end Random

namespace Permutation

variable {ρ : Type} [RandomSource ρ]

/-- A uniformly random permutation: the identity, shuffled. -/
def random (n : Nat) (r : ρ) : Permutation × ρ :=
  let shuffled := Random.shuffle (Array.range n) r
  (⟨shuffled.1, Random.isPermutation_shuffle (isPermutation_range n) r⟩, shuffled.2)

/-- A random permutation, if the identity fits into memory. -/
def random? (n : Nat) (r : ρ) : Except Breach (Permutation × ρ) := do
  let _ ← identity? n
  return random n r

end Permutation

end SwapSearch
