import SwapSearch.Random.Shuffle

/-!
# SwapSearch — mutation

A mutation rotates the items of a random *chain* of distinct positions along one
cycle: it exchanges the first and second position of the chain, then the second and
third, and so on to the end.
-/

namespace SwapSearch.Mutation

/-- Exchanges each position of the chain with the next. -/
def exchangeAlong : List Nat → Permutation → Permutation
  | i :: j :: rest, p => exchangeAlong (j :: rest) (p.swap i j)
  | _, p => p

/-- Number of positions that a chain of the requested length visits among `n`. -/
def chainSize (length n : Nat) : Nat := max 2 (min length n)

variable {ρ : Type} [RandomSource ρ]

/-- A random chain of distinct positions below `n`. -/
def drawChain (length n : Nat) (r : ρ) : List Nat × ρ :=
  let amount := chainSize length n
  let (positions, r) := Random.partialShuffle amount (Array.range n) r
  (positions.toList.drop (n - amount), r)

/-- Rotates a permutation along a random chain. Fewer than two positions have none, and nothing
is drawn for them. -/
def chain (length : Nat) (p : Permutation) (r : ρ) : Permutation × ρ :=
  if p.size < 2 then (p, r)
  else
    let (positions, r) := drawChain length p.size r
    (exchangeAlong positions p, r)

end SwapSearch.Mutation
