import Mathlib.Data.Fintype.EquivFin
import SwapSearch.Proofs.Permutation
import SwapSearch.Stored

/-!
# SwapSearch — which lists are permutations

The check of a list looks for entries that are out of range or repeated. It never asks
whether all numbers occur. They do if there is no such entry, since there are as many
entries as numbers, so what passes the check is a rearrangement of the range.

What does not pass it begins with entries in range and different from each other, and the
next entry is either out of range or one of them. This is the entry that is reported.

Both kinds of permutation that a search hands out, exchanged and stored ones, can be read
again.

## Results

* `isPermutation_iff_perm`, `isPermutation_iff_bijection` — what a permutation is.
* `firstDefect_eq_some_iff`                               — what is reported.
* `Permutation.exists_exchanges`                          — exchanges of existing positions.
* `Permutation.ofArray?_classified`                       — what is accepted, and what is not.
-/

namespace SwapSearch

-- ---------------------------------------------------------------------------
-- What a permutation is
-- ---------------------------------------------------------------------------

section Accepted

variable {values : Array Nat}

/-- **A rearrangement** of the numbers below its size. -/
theorem isPermutation_iff_perm :
    IsPermutation values ↔ values.toList.Perm (List.range values.size) :=
  ⟨fun h => Permutation.toList_perm ⟨values, h⟩, fun h => isPermutation_of_perm h⟩

/-- **A bijection** from positions to entries. That it meets every number needs no check, since
there are as many positions as numbers. -/
theorem isPermutation_iff_bijection :
    IsPermutation values ↔
      ∃ f : Equiv.Perm (Fin values.size), ∀ i : Fin values.size, values[i] = f i := by
  constructor
  · intro h
    let entry (i : Fin values.size) : Fin values.size :=
      ⟨values[i], h.1 _ (Array.getElem_mem i.isLt)⟩
    have hAt (i : Fin values.size) : values[i.val]? = some (entry i).val :=
      Array.getElem?_eq_getElem i.isLt
    -- no entry twice, and as many positions as numbers, so it is onto as well
    have hInjective : Function.Injective entry := by
      intro i j hSame
      refine Fin.ext (Permutation.eq_of_getElem? (p := ⟨values, h⟩) (hAt i) ?_)
      rw [hSame]
      exact hAt j
    exact ⟨Equiv.ofBijective entry (Finite.injective_iff_bijective.mp hInjective), fun _ => rfl⟩
  · rintro ⟨f, hf⟩
    refine ⟨fun v hv => ?_, List.pairwise_iff_getElem.mpr fun i j hi hj hLess hSame => ?_⟩
    · obtain ⟨i, hi, rfl⟩ := Array.getElem_of_mem hv
      exact (hf ⟨i, hi⟩).trans_lt (f ⟨i, hi⟩).isLt
    · rw [Array.length_toList] at hi hj
      rw [Array.getElem_toList, Array.getElem_toList] at hSame
      have hEntries : f ⟨i, hi⟩ = f ⟨j, hj⟩ :=
        Fin.ext ((hf ⟨i, hi⟩).symm.trans (hSame.trans (hf ⟨j, hj⟩)))
      exact hLess.ne (congrArg Fin.val (f.injective hEntries))

end Accepted

-- ---------------------------------------------------------------------------
-- What is reported
-- ---------------------------------------------------------------------------

section Reported

variable {n : Nat} {values : List Nat} {d : PermutationDefect}

/-- The first entry that is out of range or repeats one before it. -/
inductive FirstDefect (n : Nat) (values : List Nat) : PermutationDefect → Prop
  | outOfRange {before after : List Nat} {v : Nat} (hValues : values = before ++ v :: after)
      (hBefore : DefectFree n before) (hRange : n ≤ v) : FirstDefect n values (.outOfRange v)
  | repeated {before after : List Nat} {v : Nat} (hValues : values = before ++ v :: after)
      (hBefore : DefectFree n before) (hOld : v ∈ before) : FirstDefect n values (.repeated v)

/-- What is not free of defects has a first one. -/
theorem exists_firstDefect (h : ¬ DefectFree n values) : ∃ d, FirstDefect n values d := by
  -- from the right: the first defect is that of the front, or the last entry makes one
  induction values using List.reverseRecOn with
  | nil => exact absurd (defectFree_nil n) h
  | append_singleton values v ih =>
    by_cases hBefore : DefectFree n values
    · by_cases hRange : n ≤ v
      · exact ⟨_, .outOfRange rfl hBefore hRange⟩
      · by_cases hOld : v ∈ values
        · exact ⟨_, .repeated rfl hBefore hOld⟩
        · exact absurd (defectFree_concat_iff.mpr ⟨hBefore, Nat.not_le.mp hRange, hOld⟩) h
    · -- a defect of the front is one of the whole, with one entry more behind it
      have hLonger {before after : List Nat} {w : Nat} (h : values = before ++ w :: after) :
          values ++ [v] = before ++ w :: (after ++ [v]) := by
        rw [h, List.append_assoc]
        rfl
      obtain ⟨d, hFirst⟩ := ih hBefore
      cases hFirst with
      | outOfRange hValues hFree hRange => exact ⟨_, .outOfRange (hLonger hValues) hFree hRange⟩
      | repeated hValues hFree hOld => exact ⟨_, .repeated (hLonger hValues) hFree hOld⟩

/-- The check reports the first defect. -/
theorem FirstDefect.firstDefect_eq {values : Array Nat}
    (h : FirstDefect values.size values.toList d) : firstDefect values = some d := by
  unfold firstDefect
  cases h with
  | @outOfRange before after v hValues hFree hRange =>
    obtain ⟨seen, -, hPassed⟩ :=
      exists_firstDefectFrom_append (seen_replicate values.size) hFree
    rw [hValues, hPassed, firstDefectFrom, if_pos hRange]
  | @repeated before after v hValues hFree hOld =>
    obtain ⟨seen, hSeen, hPassed⟩ :=
      exists_firstDefectFrom_append (seen_replicate values.size) hFree
    have hRange : v < values.size := hFree.lt v hOld
    rw [hValues, hPassed, firstDefectFrom, if_neg (Nat.not_le.mpr hRange),
      if_pos ((hSeen.marked_iff v hRange).mpr hOld)]

/-- **What is reported** is the first defect. -/
theorem firstDefect_eq_some_iff {values : Array Nat} :
    firstDefect values = some d ↔ FirstDefect values.size values.toList d := by
  refine ⟨fun h => ?_, FirstDefect.firstDefect_eq⟩
  have hNot : ¬ DefectFree values.size values.toList := fun hFree =>
    nomatch h.symm.trans (firstDefect_of_isPermutation (isPermutation_iff_defectFree.mpr hFree))
  obtain ⟨d', hFirst⟩ := exists_firstDefect hNot
  obtain rfl := Option.some.inj (h.symm.trans hFirst.firstDefect_eq)
  exact hFirst

end Reported

-- ---------------------------------------------------------------------------
-- Reading permutations
-- ---------------------------------------------------------------------------

namespace Permutation

variable {values : Array Nat} {p : Permutation}

theorem ofArray?_eq_ok_iff : ofArray? values = .ok p ↔ p.values = values := by
  unfold ofArray?
  split
  · next hNone =>
    rw [Except.ok.injEq]
    exact ⟨fun h => h ▸ rfl, fun h => ext_values h.symm⟩
  · next d hDefect =>
    refine iff_of_false nofun ?_
    rintro rfl
    exact nomatch hDefect.symm.trans (firstDefect_of_isPermutation p.isPermutation)

theorem exists_ofArray?_iff : (∃ p, ofArray? values = .ok p) ↔ IsPermutation values :=
  ⟨fun ⟨p, hp⟩ => ofArray?_eq_ok_iff.mp hp ▸ p.isPermutation,
    fun h => ⟨⟨values, h⟩, ofArray?_eq_ok_iff.mpr rfl⟩⟩

theorem ofArray?_eq_error_iff {e : Rejection} :
    ofArray? values = .error e ↔
      ∃ d, FirstDefect values.size values.toList d ∧ e = .notAPermutation values.size d := by
  simp only [← firstDefect_eq_some_iff]
  unfold ofArray?
  split
  · next hNone => exact iff_of_false nofun fun ⟨d, hDefect, _⟩ => nomatch hNone.symm.trans hDefect
  · next d hDefect =>
    rw [Except.error.injEq]
    constructor
    · rintro rfl
      exact ⟨d, hDefect, rfl⟩
    · rintro ⟨d', hOther, rfl⟩
      obtain rfl := Option.some.inj (hDefect.symm.trans hOther)
      rfl

/-- **Exchanges of existing positions** succeed, and do to the entries what they say. -/
theorem exists_exchanges (swaps : List (Nat × Nat))
    (hRange : ∀ s ∈ swaps, s.1 < p.size ∧ s.2 < p.size) :
    ∃ q, swaps.foldlM (fun p s => p.swap? s.1 s.2) p = .ok q ∧
      q.values = swaps.foldl (fun xs s => xs.swapIfInBounds s.1 s.2) p.values := by
  induction swaps generalizing p with
  | nil => exact ⟨p, rfl, rfl⟩
  | cons s swaps ih =>
    obtain ⟨hHere, hLater⟩ := List.forall_mem_cons.mp hRange
    have hSwap : p.swap? s.1 s.2 = .ok (p.swap s.1 s.2) := if_pos hHere
    rw [← size_swap p s.1 s.2] at hLater
    rw [List.foldlM_cons, hSwap]
    exact ih hLater

theorem toOption_eq_some_iff : (ofArray? values).toOption = some p ↔ p.values = values := by
  rw [← ofArray?_eq_ok_iff]
  cases ofArray? values with
  | error e => exact iff_of_false nofun nofun
  | ok q =>
    exact ⟨fun h => congrArg Except.ok (Option.some.inj h),
      fun h => congrArg some (Except.ok.inj h)⟩

/-- **A stored list** is read as a permutation if it lists one. -/
theorem permutation?_eq_some_iff {json : Json.Value} :
    Stored.permutation? json = some p ↔ Stored.list? Stored.word? json = some p.toList := by
  unfold Stored.permutation?
  rw [Option.bind_eq_bind, Option.bind_eq_some_iff]
  constructor
  · rintro ⟨items, hItems, hRead⟩
    rw [hItems, toList, toOption_eq_some_iff.mp hRead]
  · intro hItems
    exact ⟨p.toList, hItems, toOption_eq_some_iff.mpr Array.toArray_toList.symm⟩

/-- **What is accepted.** A list is accepted exactly if it is a rearrangement of the numbers below
its length, that is, if it maps positions to entries one for one, and what comes of it holds the
list. Of any other list the first entry is reported that is out of range or repeats an earlier one.
Exchanges of existing positions lead to lists that are accepted again. A stored list is read as a
permutation exactly if it is accepted. -/
theorem ofArray?_classified (values : Array Nat) :
    ((∃ p, ofArray? values = .ok p) ↔ values.toList.Perm (List.range values.size)) ∧
    ((∃ p, ofArray? values = .ok p) ↔
      ∃ f : Equiv.Perm (Fin values.size), ∀ i : Fin values.size, values[i] = f i) ∧
    (∀ p, ofArray? values = .ok p ↔ p.values = values) ∧
    (∀ e, ofArray? values = .error e ↔
      ∃ d, FirstDefect values.size values.toList d ∧ e = .notAPermutation values.size d) ∧
    (∀ (p : Permutation) (swaps : List (Nat × Nat)), ofArray? values = .ok p →
      (∀ s ∈ swaps, s.1 < values.size ∧ s.2 < values.size) →
      ∃ q, swaps.foldlM (fun p s => p.swap? s.1 s.2) p = .ok q ∧
        q.values = swaps.foldl (fun xs s => xs.swapIfInBounds s.1 s.2) values ∧
        ofArray? q.values = .ok q) ∧
    (∀ json, Stored.list? Stored.word? json = some values.toList →
      ((∃ p, Stored.permutation? json = some p) ↔
        values.toList.Perm (List.range values.size))) ∧
    ∀ json p, Stored.permutation? json = some p ↔
      Stored.list? Stored.word? json = some p.toList := by
  refine ⟨exists_ofArray?_iff.trans isPermutation_iff_perm,
    exists_ofArray?_iff.trans isPermutation_iff_bijection, fun p => ofArray?_eq_ok_iff,
    fun e => ofArray?_eq_error_iff, fun p swaps hAccepted hRange => ?_,
    fun json hJson => ?_, fun json p => permutation?_eq_some_iff⟩
  · obtain rfl := ofArray?_eq_ok_iff.mp hAccepted
    obtain ⟨q, hExchanges, hValues⟩ := exists_exchanges swaps hRange
    exact ⟨q, hExchanges, hValues, ofArray?_eq_ok_iff.mpr rfl⟩
  · rw [← isPermutation_iff_perm, ← exists_ofArray?_iff]
    refine exists_congr fun p => ?_
    rw [permutation?_eq_some_iff, hJson, ofArray?_eq_ok_iff, Option.some_inj, toList,
      Array.toList_inj]
    exact eq_comm

/-- A list that is accepted, also after two exchanges, and one that repeats an entry before it
leaves the range. -/
theorem ofArray?_classified_four :
    let digit (n : Nat) : Json.Value := .number ⟨false, [n], [], none⟩
    let swaps := [(0, 3), (2, 1)]
    (∀ s ∈ swaps, s.1 < 4 ∧ s.2 < 4) ∧
      (∃ p q, ofArray? #[2, 0, 3, 1] = .ok p ∧
        swaps.foldlM (fun (p : Permutation) s => p.swap? s.1 s.2) p = .ok q ∧
        q.values = #[1, 3, 0, 2] ∧ ofArray? q.values = .ok q) ∧
      ofArray? #[1, 0, 1, 9] = .error (.notAPermutation 4 (.repeated 1)) ∧
      FirstDefect 4 [1, 0, 1, 9] (.repeated 1) ∧
      ∃ p, Stored.permutation? (.array ([2, 0, 3, 1].map digit)) = some p := by
  intro digit swaps
  have hRange : ∀ s ∈ swaps, s.1 < 4 ∧ s.2 < 4 := by decide
  have hError : ofArray? #[1, 0, 1, 9] = .error (.notAPermutation 4 (.repeated 1)) := by
    decide +kernel
  obtain ⟨hPerm, -, -, -, hExchanges, hStored, -⟩ := ofArray?_classified #[2, 0, 3, 1]
  obtain ⟨-, -, -, hReport, -⟩ := ofArray?_classified #[1, 0, 1, 9]
  obtain ⟨p, hp⟩ := hPerm.mpr (by decide)
  obtain ⟨q, hq, hValues, hAgain⟩ := hExchanges p swaps hp hRange
  obtain ⟨d, hFirst, hDefect⟩ := (hReport _).mp hError
  obtain rfl := (Rejection.notAPermutation.inj hDefect).2
  exact ⟨hRange, ⟨p, q, hp, hq, hValues, hAgain⟩, hError, hFirst,
    (hStored _ (by decide +kernel)).mpr (by decide)⟩

end Permutation

end SwapSearch
