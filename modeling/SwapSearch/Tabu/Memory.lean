import SwapSearch.Scalar
import SwapSearch.Word

/-!
# SwapSearch — swap memory

A walk remembers of every pair of positions when it was last exchanged and how
often. The first is the short-term memory that makes pairs *tabu*; the second is
kept for diagnosis. Pairs are unordered, and a pair never exchanged is never
tabu.
-/

namespace SwapSearch.Tabu

structure Memory where
  size : Nat
  last : Array (Option Nat)
  count : Array Nat
  last_size : last.size = size * size
  count_size : count.size = size * size

namespace Memory

/-- A memory of no swap at all. -/
def blank (n : Nat) : Memory :=
  ⟨n, Array.replicate (n * n) none, Array.replicate (n * n) 0, by simp, by simp⟩

/-- A memory of no swap at all, if it fits into the address space. An iteration takes sixteen
bytes. -/
def allocate (n : Nat) : Except Breach Memory := do
  let cells ← Word.checked (n * n)
  Word.reserve cells 16
  return blank n

/-- The cell of a pair, smaller position first. -/
def offset (m : Memory) (i j : Nat) : Nat := min i j * m.size + max i j

/-- The pair has a cell. -/
def requireCell (m : Memory) (i j : Nat) : Except Breach Unit :=
  if m.offset i j < m.size * m.size then .ok () else .error .outOfBounds

/-- The iteration of the last swap of a pair. -/
def lastSwap (m : Memory) (i j : Nat) : Option Nat := m.last.getD (m.offset i j) none

/-- How often a pair was swapped. -/
def frequency (m : Memory) (i j : Nat) : Nat := m.count.getD (m.offset i j) 0

/-- Records a swap of a pair. The count stays at the largest 32-bit number. -/
def record (m : Memory) (i j iteration : Nat) : Memory :=
  { size := m.size
    last := m.last.setIfInBounds (m.offset i j) (some iteration)
    count := m.count.setIfInBounds (m.offset i j) (min (m.frequency i j + 1) (Word.halfSize - 1))
    last_size := by simpa using m.last_size
    count_size := by simpa using m.count_size }

/-- The last swap of the pair lies within `tenure` iterations of `iteration`. -/
def isTabu {α : Type} [Scalar α] (m : Memory) (i j iteration : Nat) (tenure : α) : Bool :=
  match m.lastSwap i j with
  | some last => (iteration : α) ≤ (last : α) + tenure
  | none => false

end Memory

end SwapSearch.Tabu
