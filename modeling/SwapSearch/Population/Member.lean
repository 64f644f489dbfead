import SwapSearch.Permutation
import SwapSearch.Scalar

/-!
# SwapSearch — members

A *member* of a population is a solution together with its objective vector and a
*fitness*, the mean of the vector. Members are ranked by fitness alone.
-/

namespace SwapSearch

structure Member (α : Type) where
  solution : Permutation
  vector : List α
  fitness : α

namespace Member

variable {α : Type}

/-- The member of a solution with its objective vector. -/
def ofVector [Scalar α] (solution : Permutation) (vector : List α) : Member α :=
  { solution, vector, fitness := Scalar.mean vector }

/-- Some of the members has this solution. -/
def listed (members : Array (Member α)) (solution : Permutation) : Bool :=
  members.any (·.solution = solution)

/-- The position of the first member that ranks lowest. -/
def lowest? [Graded α] (members : Array (Member α)) : Option Nat :=
  match members.toList.zipIdx with
  | [] => none
  | first :: rest =>
    some (rest.foldl (fun low m =>
      if Graded.totalLt m.1.fitness low.1.fitness then m else low) first).2

end Member

end SwapSearch
