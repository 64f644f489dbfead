import SwapSearch.Word

/-!
# SwapSearch — permutations

A *solution* is an assignment of `n` items to `n` positions: an array of length
`n` that lists every number below `n` exactly once. `Permutation` carries that
fact, so every operator that returns one returns a bijection.

* `firstDefect` finds the first entry that is out of range or repeats an earlier
  one; `Permutation.ofArray?` accepts an array exactly when there is none.
* `swap` exchanges two positions and keeps the bijection.
-/

namespace SwapSearch

/-- `values` lists every number below its length exactly once. -/
def IsPermutation (values : Array Nat) : Prop :=
  (∀ v ∈ values, v < values.size) ∧ values.toList.Nodup

-- ---------------------------------------------------------------------------
-- Checking
-- ---------------------------------------------------------------------------

/-- The first entry that is no number below `n` or is marked in `seen`, which gains a mark for
every entry passed. -/
def firstDefectFrom (n : Nat) : List Nat → Array Bool → Option PermutationDefect
  | [], _ => none
  | v :: rest, seen =>
    if n ≤ v then some (.outOfRange v)
    else if seen.getD v false then some (.repeated v)
    else firstDefectFrom n rest (seen.setIfInBounds v true)

/-- The first entry that is out of range or repeats an earlier entry. -/
def firstDefect (values : Array Nat) : Option PermutationDefect :=
  firstDefectFrom values.size values.toList (Array.replicate values.size false)

/-- No entry is out of range or repeated. -/
def isBijection (values : Array Nat) : Bool := (firstDefect values).isNone

theorem firstDefectFrom_eq_none {n : Nat} {vs : List Nat} {seen : Array Bool}
    (hSize : seen.size = n) (h : firstDefectFrom n vs seen = none) :
    (∀ v ∈ vs, v < n ∧ seen.getD v false = false) ∧ vs.Nodup := by
  induction vs generalizing seen with
  | nil => exact ⟨by simp, List.nodup_nil⟩
  | cons v rest ih =>
    unfold firstDefectFrom at h
    split at h
    · cases h
    · next hRange =>
      split at h
      · cases h
      · next hFresh =>
        have hv : v < n := by omega
        have hMarked : (seen.setIfInBounds v true).size = n := by simpa using hSize
        obtain ⟨hRest, hNodup⟩ := ih hMarked h
        -- an entry that is unmarked after `v` was marked is not `v`, and was unmarked before
        have hStep : ∀ w ∈ rest, w ≠ v ∧ seen.getD w false = false := by
          intro w hw
          have hMark := (hRest w hw).2
          rw [Array.getD_eq_getD_getElem?, Array.getElem?_setIfInBounds] at hMark
          split at hMark
          · next hEq => subst hEq; simp [hSize, hv] at hMark
          · next hNe =>
            refine ⟨fun hEq => hNe hEq.symm, ?_⟩
            rw [Array.getD_eq_getD_getElem?]; exact hMark
        refine ⟨?_, List.nodup_cons.mpr ⟨fun hMem => (hStep v hMem).1 rfl, hNodup⟩⟩
        intro w hw
        rcases List.mem_cons.mp hw with rfl | hw
        · exact ⟨hv, by simpa using hFresh⟩
        · exact ⟨(hRest w hw).1, (hStep w hw).2⟩

/-- An array without a defect is a permutation. -/
theorem isPermutation_of_firstDefect {values : Array Nat} (h : firstDefect values = none) :
    IsPermutation values := by
  obtain ⟨hMem, hNodup⟩ := firstDefectFrom_eq_none (by simp) h
  exact ⟨fun v hv => (hMem v (Array.mem_toList_iff.mpr hv)).1, hNodup⟩

/-- An exchange of two entries keeps the entries. -/
theorem swapIfInBounds_perm {β : Type} (xs : Array β) (i j : Nat) :
    (xs.swapIfInBounds i j).toList.Perm xs.toList := by
  unfold Array.swapIfInBounds
  split
  · split
    · exact (Array.swap_perm _ _).toList
    · exact List.Perm.refl _
  · exact List.Perm.refl _

/-- Being a permutation survives any exchange of two entries. -/
theorem IsPermutation.swapIfInBounds {values : Array Nat} (h : IsPermutation values) (i j : Nat) :
    IsPermutation (values.swapIfInBounds i j) := by
  have hPerm := swapIfInBounds_perm values i j
  refine ⟨fun v hv => ?_, hPerm.nodup_iff.mpr h.2⟩
  rw [Array.size_swapIfInBounds]
  exact h.1 v (Array.mem_toList_iff.mp (hPerm.mem_iff.mp (Array.mem_toList_iff.mpr hv)))

theorem isPermutation_range (n : Nat) : IsPermutation (Array.range n) :=
  ⟨fun v hv => by simpa using hv, by simpa using List.nodup_range⟩

-- ---------------------------------------------------------------------------
-- The type
-- ---------------------------------------------------------------------------

/-- A bijective assignment of items to positions: `values[i]` is the item at position `i`. -/
structure Permutation where
  values : Array Nat
  isPermutation : IsPermutation values
  deriving DecidableEq

namespace Permutation

/-- The permutation that leaves every item in place. -/
def identity (n : Nat) : Permutation := ⟨Array.range n, isPermutation_range n⟩

/-- The identity, if it fits into memory. An item takes eight bytes. -/
def identity? (n : Nat) : Except Breach Permutation := do
  Word.reserve n 8
  return identity n

/-- Accepts a permutation and reports the first defect of anything else. -/
def ofArray? (values : Array Nat) : Except Rejection Permutation :=
  match h : firstDefect values with
  | none => .ok ⟨values, isPermutation_of_firstDefect h⟩
  | some defect => .error (.notAPermutation values.size defect)

/-- Wraps what an operator built; the operator is wrong if it is no permutation. -/
def ofOperator (values : Array Nat) : Except Breach Permutation :=
  match h : firstDefect values with
  | none => .ok ⟨values, isPermutation_of_firstDefect h⟩
  | some _ => .error .brokenBijection

/-- Number of items. -/
def size (p : Permutation) : Nat := p.values.size

def isEmpty (p : Permutation) : Bool := p.size == 0

def toList (p : Permutation) : List Nat := p.values.toList

/-- The item at position `i`. -/
def item (p : Permutation) (i : Nat) : Except Breach Nat :=
  match p.values[i]? with
  | some v => .ok v
  | none => .error .outOfBounds

/-- Exchanges the items at positions `i` and `j`. Positions outside change nothing. -/
def swap (p : Permutation) (i j : Nat) : Permutation :=
  ⟨p.values.swapIfInBounds i j, p.isPermutation.swapIfInBounds i j⟩

/-- Exchanges two positions, both of which must exist. -/
def swap? (p : Permutation) (i j : Nat) : Except Breach Permutation :=
  if i < p.size ∧ j < p.size then .ok (p.swap i j) else .error .outOfBounds

/-- Permutations are ordered lexicographically. -/
instance : Ord Permutation := ⟨fun p q => compare p.toList q.toList⟩

instance : Inhabited Permutation := ⟨identity 0⟩

@[simp] theorem size_identity (n : Nat) : (identity n).size = n := by simp [identity, size]

@[simp] theorem size_swap (p : Permutation) (i j : Nat) : (p.swap i j).size = p.size := by
  simp [swap, size]

end Permutation

end SwapSearch
