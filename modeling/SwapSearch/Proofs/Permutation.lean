import Mathlib.Data.List.Nodup
import Mathlib.Data.List.Perm.Subperm
import Mathlib.Logic.Equiv.Basic
import SwapSearch.Permutation

/-!
# SwapSearch — permutations, position by position

A permutation holds every item below its size at exactly one position. An exchange moves
the two items it names and no other, so what lies at a position after the exchange is
what lay at the position it is exchanged with.

What an operator has built is checked before it counts as a permutation. The check looks
for the first item out of range or seen before, and a permutation has none. Its table of
marks says which items have been passed.

## Results

* `exists_firstDefectFrom_append` — the check passes whatever is in range and not repeated.
* `ofOperator_of_isPermutation` — a permutation passes the check.
* `toList_perm`                 — the items are the numbers below the size.
* `exists_getElem?_of_lt`       — every item has a position.
* `eq_of_getElem?`              — and only one.
* `getElem?_swap`               — an exchange, read at a position.
-/

namespace SwapSearch

-- ---------------------------------------------------------------------------
-- Exchanging
-- ---------------------------------------------------------------------------

/-- Two entries of an array change places. -/
theorem getElem?_swapIfInBounds {β : Type} {xs : Array β} {i j : Nat} (hi : i < xs.size)
    (hj : j < xs.size) (k : Nat) : (xs.swapIfInBounds i j)[k]? = xs[Equiv.swap i j k]? := by
  rw [Array.swapIfInBounds, dif_pos hi, dif_pos hj, Array.getElem?_swap, Equiv.swap_apply_def]
  by_cases hki : k = i
  · by_cases hkj : k = j
    · simp [← hki, ← hkj]
    · simp [← hki, Ne.symm hkj, hj]
  · by_cases hkj : k = j
    · simp [← hkj, hki, hi]
    · simp [hki, hkj, Ne.symm hki, Ne.symm hkj]

-- ---------------------------------------------------------------------------
-- Checking
-- ---------------------------------------------------------------------------

/-- Numbers below `n`, none of them twice. -/
structure DefectFree (n : Nat) (passed : List Nat) : Prop where
  lt : ∀ v ∈ passed, v < n
  nodup : passed.Nodup

theorem defectFree_nil (n : Nat) : DefectFree n [] := ⟨nofun, List.nodup_nil⟩

theorem defectFree_concat_iff {n v : Nat} {passed : List Nat} :
    DefectFree n (passed ++ [v]) ↔ DefectFree n passed ∧ v < n ∧ v ∉ passed := by
  constructor
  · rintro ⟨hRange, hNodup⟩
    obtain ⟨hBefore, -, hApart⟩ := List.nodup_append.mp hNodup
    refine ⟨⟨fun w hw => hRange w (List.mem_append_left _ hw), hBefore⟩,
      hRange v (List.mem_append_right _ List.mem_cons_self), fun hMem => ?_⟩
    exact hApart v hMem v List.mem_cons_self rfl
  · rintro ⟨hFree, hLess, hNew⟩
    refine ⟨fun w hw => ?_, List.nodup_append.mpr ⟨hFree.nodup, List.nodup_singleton v, ?_⟩⟩
    · rcases List.mem_append.mp hw with hOld | hLast
      · exact hFree.lt w hOld
      · exact List.mem_singleton.mp hLast ▸ hLess
    · intro w hw v' hv' hSame
      exact hNew (List.mem_singleton.mp hv' ▸ hSame ▸ hw)

theorem isPermutation_iff_defectFree {values : Array Nat} :
    IsPermutation values ↔ DefectFree values.size values.toList :=
  ⟨fun h => ⟨fun v hv => h.1 v (Array.mem_toList_iff.mp hv), h.2⟩,
    fun h => ⟨fun v hv => h.lt v (Array.mem_toList_iff.mpr hv), h.nodup⟩⟩

/-- The marks of the numbers below `n` that have been passed. -/
structure Seen (n : Nat) (passed : List Nat) (seen : Array Bool) : Prop where
  size_eq : seen.size = n
  marked_iff : ∀ v < n, seen.getD v false = true ↔ v ∈ passed

theorem seen_replicate (n : Nat) : Seen n [] (Array.replicate n false) := by
  refine ⟨Array.size_replicate .., fun v hv => ?_⟩
  simp [Array.getD_eq_getD_getElem?, hv]

theorem Seen.mark {n v : Nat} {passed : List Nat} {seen : Array Bool} (h : Seen n passed seen)
    (hRange : v < n) : Seen n (passed ++ [v]) (seen.setIfInBounds v true) := by
  refine ⟨(Array.size_setIfInBounds ..).trans h.size_eq, fun w hw => ?_⟩
  rw [Array.getD_eq_getD_getElem?, List.mem_append, List.mem_singleton]
  by_cases hSame : v = w
  · subst hSame
    rw [Array.getElem?_setIfInBounds_self_of_lt (h.size_eq ▸ hRange)]
    simp
  · rw [Array.getElem?_setIfInBounds_ne hSame, ← Array.getD_eq_getD_getElem?, h.marked_iff w hw]
    simp [Ne.symm hSame]

/-- **Entries without defects are passed** and leave their marks. -/
theorem exists_firstDefectFrom_append {n : Nat} {passed before : List Nat} {seen : Array Bool}
    (hSeen : Seen n passed seen) (hFree : DefectFree n (passed ++ before)) :
    ∃ seen', Seen n (passed ++ before) seen' ∧
      ∀ rest, firstDefectFrom n (before ++ rest) seen = firstDefectFrom n rest seen' := by
  induction before generalizing passed seen with
  | nil => exact ⟨seen, (List.append_nil passed).symm ▸ hSeen, fun _ => rfl⟩
  | cons v before ih =>
    rw [List.append_cons] at hFree ⊢
    have hFirst : DefectFree n (passed ++ [v]) :=
      ⟨fun w hw => hFree.lt w (List.mem_append_left _ hw),
        hFree.nodup.sublist (List.sublist_append_left ..)⟩
    obtain ⟨-, hRange, hNew⟩ := defectFree_concat_iff.mp hFirst
    obtain ⟨seen', hMarks, hRest⟩ := ih (hSeen.mark hRange) hFree
    refine ⟨seen', hMarks, fun rest => ?_⟩
    rw [← hRest rest, List.cons_append, firstDefectFrom, if_neg (Nat.not_le.mpr hRange),
      if_neg fun hMarked => hNew ((hSeen.marked_iff v hRange).mp hMarked)]

/-- A permutation has no defect. -/
theorem firstDefect_of_isPermutation {values : Array Nat} (h : IsPermutation values) :
    firstDefect values = none := by
  obtain ⟨seen, -, hPassed⟩ :=
    exists_firstDefectFrom_append (seen_replicate values.size) (isPermutation_iff_defectFree.mp h)
  have hAll := hPassed []
  rw [List.append_nil] at hAll
  exact hAll

/-- The numbers below `n` in some order. -/
theorem isPermutation_of_perm {values : List Nat} {n : Nat} (h : values.Perm (List.range n)) :
    IsPermutation values.toArray := by
  have hLength : values.length = n := h.length_eq.trans List.length_range
  refine ⟨fun v hv => ?_, h.nodup_iff.mpr List.nodup_range⟩
  rw [List.size_toArray, hLength]
  exact List.mem_range.mp (h.mem_iff.mp (List.mem_toArray.mp hv))

namespace Permutation

variable {p : Permutation} {i j k v : Nat}

/-- An operator that builds a permutation passes its check. -/
theorem ofOperator_of_isPermutation {values : Array Nat} (h : IsPermutation values) :
    Permutation.ofOperator values = .ok ⟨values, h⟩ := by
  unfold ofOperator
  split
  · rfl
  · next hDefect =>
    rw [firstDefect_of_isPermutation h] at hDefect
    cases hDefect

-- ---------------------------------------------------------------------------
-- Positions
-- ---------------------------------------------------------------------------

/-- All numbers below the size, in some order. -/
theorem toList_perm (p : Permutation) : p.toList.Perm (List.range p.size) := by
  have hSubset : p.toList ⊆ List.range p.size := fun v hv =>
    List.mem_range.mpr (p.isPermutation.1 v (Array.mem_toList_iff.mp hv))
  refine (List.subperm_of_subset p.isPermutation.2 hSubset).perm_of_length_le ?_
  rw [List.length_range]
  exact Nat.le_of_eq Array.length_toList.symm

theorem position_lt (h : p.values[i]? = some v) : i < p.size :=
  (Array.getElem?_eq_some_iff.mp h).1

theorem item_lt (h : p.values[i]? = some v) : v < p.size :=
  p.isPermutation.1 v (Array.mem_of_getElem? h)

theorem exists_getElem? (hi : i < p.size) : ∃ v, p.values[i]? = some v :=
  ⟨p.values[i], Array.getElem?_eq_getElem hi⟩

/-- Every item has a position. -/
theorem exists_getElem?_of_lt (hv : v < p.size) : ∃ i : Nat, p.values[i]? = some v := by
  have hMem : v ∈ p.values :=
    Array.mem_toList_iff.mp (p.toList_perm.mem_iff.mpr (List.mem_range.mpr hv))
  exact Array.getElem?_of_mem hMem

/-- An item has only one position. -/
theorem eq_of_getElem? (hi : p.values[i]? = some v) (hj : p.values[j]? = some v) : i = j := by
  rw [← Array.getElem?_toList] at hi hj
  have hLess : i < p.values.toList.length := (List.getElem?_eq_some_iff.mp hi).1
  exact (List.getElem?_inj hLess p.isPermutation.2).mp (hi.trans hj.symm)

/-- What lies at a position after an exchange lay at the position it is exchanged with. -/
theorem getElem?_swap (hi : i < p.size) (hj : j < p.size) (k : Nat) :
    (p.swap i j).values[k]? = p.values[Equiv.swap i j k]? :=
  getElem?_swapIfInBounds hi hj k

theorem ext_values {q : Permutation} (h : p.values = q.values) : p = q := by
  cases p
  cases q
  cases h
  rfl

theorem swap_self (hi : i < p.size) : p.swap i i = p := by
  refine ext_values (Array.ext_getElem? fun k => ?_)
  rw [getElem?_swap hi hi, Equiv.swap_self]
  rfl

end Permutation

end SwapSearch
