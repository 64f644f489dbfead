import SwapSearch.Pareto.Forest

/-!
# SwapSearch — the Pareto archive

The archive keeps the non-dominated part of a stream of solutions with their
objective vectors. It is offered one pair at a time and answers whether it
retained it. Retained pairs that the newcomer dominates leave.

A solution is retained at most once: offered again with another vector, it first
gives up its old entry. The *ideal point* is the componentwise maximum over every
well-formed vector ever offered, retained or not.
-/

namespace SwapSearch.Pareto

/-- The vector has the right length and finite components. -/
def requireVector {α : Type} [Scalar α] (dimensions : Nat) (vector : List α) :
    Except Rejection Unit :=
  if vector.length ≠ dimensions then .error (.dimensionMismatch dimensions vector.length)
  else if vector.all Scalar.isFinite then .ok ()
  else .error .nonFiniteObjective

structure Archive (α : Type) where
  dimensions : Nat
  capacity : Nat
  forest : Forest α
  serial : Nat
  retained : List (Entry α)
  ideal : List α

namespace Archive

variable {α : Type} [Scalar α]

/-- The number of entries a bucket holds unless told otherwise. -/
def defaultCapacity : Nat := 20

/-- An archive for 1 to 64 objectives whose buckets split above `capacity` entries. -/
def empty (dimensions capacity : Nat) : Except Breach (Archive α) :=
  if dimensions = 0 ∨ 64 < dimensions then .error .archiveDimensions
  else if capacity = 0 then .error .leafCapacity
  else .ok {
    dimensions, capacity
    forest := .leaf 0 0 [] .nil
    serial := 1
    retained := []
    ideal := List.replicate dimensions Scalar.negInf }

/-- Number of retained entries. -/
def size (a : Archive α) : Nat := a.retained.length

/-- The retained entry of a solution. -/
def find? (a : Archive α) (solution : Permutation) : Option (Entry α) :=
  a.retained.find? (·.solution = solution)

def contains (a : Archive α) (solution : Permutation) : Bool := (a.find? solution).isSome

/-- The retained entries, in order of the creation of the nodes that hold them. -/
def entries (a : Archive α) : List (Entry α) := a.forest.entries

/-- Strikes solutions off the list of what is retained. -/
def forget (a : Archive α) (gone : List Permutation) : Archive α :=
  { a with retained := a.retained.filter (·.solution ∉ gone) }

def requireVector (a : Archive α) (vector : List α) : Except Rejection Unit :=
  Pareto.requireVector a.dimensions vector

/-- Raises the ideal point. -/
def raiseIdeal (a : Archive α) (vector : List α) : Archive α :=
  { a with ideal := List.zipWith Scalar.larger a.ideal vector }

/-- Removes the entry of a solution. -/
def detach (a : Archive α) (previous : Entry α) : Archive α :=
  let a := { a with forest := a.forest.detach previous.solution previous.vector 0 }
  a.forget [previous.solution]

/-- Offers a pair to an archive that does not hold the solution. -/
def offer (a : Archive α) (entry : Entry α) : Bool × Archive α :=
  match a.forest.cover 0 entry.vector with
  | some forest => (false, { a with forest })
  | none =>
    let newcomer : Slot α := ⟨entry, 0⟩
    let (forest, eviction) := a.forest.evict 0 entry.vector true ⟨some newcomer, []⟩
    let a := { a with forest }.forget eviction.gone
    let a :=
      match eviction.pending with
      | none => a
      | some slot =>
        let p := a.forest.place a.capacity slot 0 a.serial
        { a with forest := p.forest, serial := p.serial }.forget p.dropped
    let a := a.forget [entry.solution]
    (true, { a with retained := entry :: a.retained })

/-- Offers a solution with its vector. The answer is whether the pair is newly retained: not if
it is weakly dominated by a retained entry, nor if it is retained already. -/
def insert (a : Archive α) (solution : Permutation) (vector : List α) :
    Except Rejection (Bool × Archive α) := do
  a.requireVector vector
  let a := a.raiseIdeal vector
  match a.find? solution with
  | some previous =>
    if Scalar.sameVector previous.vector vector then return (false, a)
    else return (a.detach previous).offer ⟨solution, vector⟩
  | none => return a.offer ⟨solution, vector⟩

end Archive

end SwapSearch.Pareto
