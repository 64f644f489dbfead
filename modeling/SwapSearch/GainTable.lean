import SwapSearch.Scalar
import SwapSearch.Word

/-!
# SwapSearch — the gain table

The neighbourhood of a solution is one exchange of two positions away. A *gain
table* holds, for every pair of positions, what the objective value gains when
the two are exchanged. The pair is unordered: reads and writes of `(i, j)` and
`(j, i)` meet the same cell.

`bestMove` is the move of steepest ascent: the pair with the largest gain, the
first one in row-major order among equals.
-/

namespace SwapSearch

/-- All pairs `i < j` of `n` positions, in row-major order. -/
def swapPairs (n : Nat) : List (Nat × Nat) :=
  (List.range n).flatMap fun i => (List.range' (i + 1) (n - (i + 1))).map fun j => (i, j)

/-- A move: two positions and the gain of exchanging them. -/
structure Move (α : Type) where
  first : Nat
  second : Nat
  gain : α
  deriving Repr

/-- The gains of all swaps of `size` positions, in a square table of which only the cells above
the diagonal are used. -/
structure GainTable (α : Type) where
  size : Nat
  cells : Array α
  cells_size : cells.size = size * size

namespace GainTable

variable {α : Type} [Scalar α]

/-- A table of zeros. -/
def zeros (n : Nat) : GainTable α := ⟨n, Array.replicate (n * n) 0, by simp⟩

/-- A table of zeros, if it fits into memory. A cell takes eight bytes. -/
def allocate (n : Nat) : Except Breach (GainTable α) := do
  let count ← Word.checked (n * n)
  Word.reserve count 8
  return zeros n

/-- The cell of a pair, smaller position first. -/
def offset (n i j : Nat) : Nat := min i j * n + max i j

/-- Both positions exist, and they are different. -/
def requirePair (t : GainTable α) (i j : Nat) : Except Breach Unit :=
  if i = j then .error .equalPositions
  else if i < t.size ∧ j < t.size then .ok ()
  else .error .outOfBounds

/-- The gain of exchanging `i` and `j`; zero for what is no pair. -/
def gain (t : GainTable α) (i j : Nat) : α := t.cells.getD (offset t.size i j) 0

/-- Overwrites the gain of a pair. -/
def put (t : GainTable α) (i j : Nat) (x : α) : GainTable α :=
  ⟨t.size, t.cells.setIfInBounds (offset t.size i j) x, by simpa using t.cells_size⟩

/-- The gain of an existing pair. -/
def gain? (t : GainTable α) (i j : Nat) : Except Breach α := do
  t.requirePair i j
  return t.gain i j

/-- Overwrites the gain of an existing pair. -/
def put? (t : GainTable α) (i j : Nat) (x : α) : Except Breach (GainTable α) := do
  t.requirePair i j
  return t.put i j x

/-- Adds to the gain of an existing pair. -/
def add? (t : GainTable α) (i j : Nat) (x : α) : Except Breach (GainTable α) := do
  t.requirePair i j
  return t.put i j (t.gain i j + x)

/-- All moves in row-major order. -/
def moves (t : GainTable α) : List (Move α) :=
  (swapPairs t.size).map fun (i, j) => ⟨i, j, t.gain i j⟩

/-- Keeps the best move so far, unless the next one is not at most as good. -/
def better (best : Option (Move α)) (m : Move α) : Option (Move α) :=
  match best with
  | some b => if m.gain ≤ b.gain then best else some m
  | none => some m

/-- The move of steepest ascent. There is none for fewer than two positions. -/
def bestMove (t : GainTable α) : Option (Move α) := t.moves.foldl better none

end GainTable

end SwapSearch
