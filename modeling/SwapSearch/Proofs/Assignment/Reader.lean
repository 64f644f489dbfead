import Mathlib.Data.List.Basic
import SwapSearch.Assignment.Reader
import SwapSearch.Proofs.Assignment.Scan
import SwapSearch.Proofs.Text
import SwapSearch.Proofs.Traversal

/-!
# SwapSearch — the texts that are instances

A text *lists* a size and entries if its first word is a numeral of the size and the
others are numerals of the entries. An instance is read from it if there are exactly
as many entries as two matrices of that size have, `2 * n * n`.

That number is computed in machine words before it is compared. A size that takes it
beyond them breaks the reader off, also where the text is far too short and deserves a
rejection. Every other text is read or rejected as malformed. A text that is in memory
has fewer characters than there are words, so a breach never stands in for an instance.

## Results

* `ofText_cases`       — the three ways in which reading a text can end.
* `ofText_classified`  — which texts are read, and as what; which break the reader off.
* `ofText_breaks_off`  — a text of one word that is neither read nor rejected.
-/

namespace SwapSearch

namespace Assignment

-- ---------------------------------------------------------------------------
-- Listings
-- ---------------------------------------------------------------------------

/-- The first word of the text is a numeral of `n`, and the others are numerals of the entries. -/
def Lists (text : String) (n : Nat) (entries : List Int) : Prop :=
  ∃ token tokens, Text.words text.toList = token :: tokens ∧ Text.unsigned? token = some n ∧
    tokens.map Text.signed? = entries.map some

variable {text : String} {n : Nat} {entries : List Int}

/-- A text lists one size and one sequence of entries at most. -/
theorem Lists.unique {n' : Nat} {entries' : List Int} (h : Lists text n entries)
    (h' : Lists text n' entries') : n = n' ∧ entries = entries' := by
  obtain ⟨token, tokens, hWords, hSize, hEntries⟩ := h
  obtain ⟨token', tokens', hWords', hSize', hEntries'⟩ := h'
  obtain ⟨rfl, rfl⟩ := List.cons.inj (hWords.symm.trans hWords')
  refine ⟨Option.some.inj (hSize.symm.trans hSize'), ?_⟩
  exact List.map_injective_iff.mpr (Option.some_injective Int) (hEntries.symm.trans hEntries')

/-- There are fewer entries than characters. -/
theorem Lists.length_lt (h : Lists text n entries) : entries.length < text.length := by
  obtain ⟨token, tokens, hWords, -, hEntries⟩ := h
  have hCount : tokens.length = entries.length := by
    simpa using congrArg List.length hEntries
  have hWordCount := Text.length_words_le text.toList
  rw [hWords, List.length_cons, String.length_toList] at hWordCount
  omega

/-- A token is an entry, or it is no numeral. -/
theorem readEntry_cases (token : List Char) :
    (∃ x, readEntry token = .ok x ∧ Text.signed? token = some x) ∨
    Text.signed? token = none ∧
      readEntry token = .error (.malformedInstance (.badEntry (String.ofList token))) := by
  unfold readEntry
  cases Text.signed? token with
  | none => exact Or.inr ⟨rfl, rfl⟩
  | some x => exact Or.inl ⟨x, rfl, rfl⟩

/-- Entries are read up to the first token that is no numeral. -/
theorem readEntries_cases (tokens : List (List Char)) :
    (∃ entries, readEntries tokens = .ok entries ∧ tokens.map Text.signed? = entries.map some) ∨
    ∃ token ∈ tokens, Text.signed? token = none ∧
      readEntries tokens = .error (.malformedInstance (.badEntry (String.ofList token))) := by
  rcases mapM_cases readEntry tokens with ⟨entries, hAll, hEach⟩ | ⟨token, hToken, e, hError, hAll⟩
  · refine Or.inl ⟨entries, hAll, map_eq_of_forall₂ (hEach.imp fun token x hRead => ?_)⟩
    rcases readEntry_cases token with ⟨x', hOk, hNumeral⟩ | ⟨-, hError⟩
    · rw [hNumeral, Except.ok.inj (hOk.symm.trans hRead)]
    · exact nomatch hError.symm.trans hRead
  · rcases readEntry_cases token with ⟨x, hOk, -⟩ | ⟨hNone, hBad⟩
    · exact nomatch hOk.symm.trans hError
    · exact Or.inr ⟨token, hToken, hNone, Except.error.inj (hError.symm.trans hBad) ▸ hAll⟩

-- ---------------------------------------------------------------------------
-- Reading
-- ---------------------------------------------------------------------------

/-- The number of entries is computed in words. -/
theorem entryCount_eq (n : Nat) :
    entryCount n = if 2 * n * n < Word.size then .ok (2 * n * n) else .error .overflow := by
  unfold entryCount Word.checked
  by_cases hTwice : 2 * n < Word.size
  · rw [if_pos hTwice]
    rfl
  · have hPositive : 0 < n := by
      unfold Word.size at hTwice
      omega
    have hLarger : 2 * n ≤ 2 * n * n := Nat.le_mul_of_pos_right _ hPositive
    rw [if_neg hTwice, if_neg (by omega)]
    rfl

theorem ofMatrices_of_square {q : Assignment} (hSquare : q.Square)
    (hWord : q.size * q.size < Word.size) : ofMatrices q.size q.flow q.distance = .ok q := by
  have hChecked : Word.checked (q.size * q.size) = .ok (q.size * q.size) := if_pos hWord
  unfold ofMatrices
  rw [hChecked]
  show (if q.flow.size ≠ q.size * q.size then _ else _) = _
  rw [if_neg (not_not_intro hSquare.flow)]
  show (if q.distance.size ≠ q.size * q.size then _ else _) = _
  rw [if_neg (not_not_intro hSquare.distance)]
  rfl

/-- The first half of the entries is the flow, the second the distances. -/
def halved (n : Nat) (entries : List Int) : Assignment :=
  ⟨n, (entries.take (n * n)).toArray, (entries.drop (n * n)).toArray⟩

theorem square_halved (h : entries.length = 2 * n * n) : (halved n entries).Square := by
  have hTwice : 2 * n * n = n * n + n * n := by ring
  constructor
  · show (entries.take (n * n)).toArray.size = n * n
    rw [List.size_toArray, List.length_take]
    omega
  · show (entries.drop (n * n)).toArray.size = n * n
    rw [List.size_toArray, List.length_drop]
    omega

/-- Matrices that follow each other are told apart by their size. -/
theorem halved_of_square {q : Assignment} (h : q.Square) :
    (q.flow.toList ++ q.distance.toList).length = 2 * q.size * q.size ∧
      halved q.size (q.flow.toList ++ q.distance.toList) = q := by
  have hFlow : q.flow.toList.length = q.size * q.size := h.flow
  have hDistance : q.distance.toList.length = q.size * q.size := h.distance
  constructor
  · rw [List.length_append, hFlow, hDistance]
    ring
  · unfold halved
    rw [← hFlow, List.take_left, List.drop_left]

theorem halved_append (n : Nat) (entries : List Int) :
    (halved n entries).flow.toList ++ (halved n entries).distance.toList = entries :=
  List.take_append_drop (n * n) entries

/-- Once all words are numerals, only their number matters. -/
theorem ofText_of_lists (h : Lists text n entries) :
    ofText text =
      if Word.size ≤ 2 * n * n then .error (.broken .overflow)
      else if entries.length ≠ 2 * n * n then
        .error (.rejected (.malformedInstance (.entryCount (2 * n * n) entries.length)))
      else .ok (halved n entries) := by
  obtain ⟨token, tokens, hWords, hSize, hEntries⟩ := h
  -- no word of the list is refused, so reading cannot stop early
  have hRead : readEntries tokens = .ok entries := by
    rcases readEntries_cases tokens with ⟨entries', hRead, hSame⟩ | ⟨bad, hMem, hBad, -⟩
    · obtain rfl := List.map_injective_iff.mpr (Option.some_injective Int)
        (hSame.symm.trans hEntries)
      exact hRead
    · have hNone : none ∈ entries.map some := hEntries ▸ List.mem_map.mpr ⟨bad, hMem, hBad⟩
      simp at hNone
  unfold ofText
  rw [hWords]
  dsimp only
  rw [hSize]
  dsimp only
  rw [hRead, entryCount_eq]
  -- the product is computed before anything is counted
  by_cases hOverflow : Word.size ≤ 2 * n * n
  · rw [if_pos hOverflow, if_neg (by omega)]
    rfl
  · rw [if_neg hOverflow, if_pos (by omega)]
    show (if entries.length ≠ 2 * n * n then _ else _) = _
    by_cases hCount : entries.length = 2 * n * n
    · -- the capacity of one matrix is below that of both
      have hTwice : 2 * n * n = n * n + n * n := by ring
      have hWord : n * n < Word.size := by omega
      rw [if_neg (not_not_intro hCount), if_neg (not_not_intro hCount)]
      exact ofMatrices_of_square (square_halved hCount) hWord
    · rw [if_pos hCount, if_pos hCount]
      rfl

/-- A text whose words are not all numerals is malformed. -/
theorem exists_defect_of_not_lists (h : ∀ n entries, ¬ Lists text n entries) :
    ∃ defect, ofText text = .error (.rejected (.malformedInstance defect)) := by
  unfold ofText
  -- the defect is that of the first thing that fails: no word, the size, an entry
  cases hWords : Text.words text.toList with
  | nil => exact ⟨.empty, rfl⟩
  | cons token tokens =>
    dsimp only
    cases hSize : Text.unsigned? token with
    | none => exact ⟨.badSize (String.ofList token), rfl⟩
    | some n =>
      rcases readEntries_cases tokens with ⟨entries, -, hEntries⟩ | ⟨bad, -, -, hRead⟩
      · exact absurd ⟨token, tokens, hWords, hSize, hEntries⟩ (h n entries)
      · refine ⟨.badEntry (String.ofList bad), ?_⟩
        dsimp only
        rw [hRead]
        rfl

/-- Reading a text ends with an instance, with an overflow of the number of entries, or with a
rejection. -/
theorem ofText_cases (text : String) :
    (∃ q, ofText text = .ok q ∧ q.Square ∧ 2 * q.size * q.size < Word.size ∧
      Lists text q.size (q.flow.toList ++ q.distance.toList)) ∨
    (ofText text = .error (.broken .overflow) ∧
      ∃ n entries, Lists text n entries ∧ Word.size ≤ 2 * n * n) ∨
    ((∃ defect, ofText text = .error (.rejected (.malformedInstance defect))) ∧
      ∀ n entries, Lists text n entries → 2 * n * n < Word.size ∧ entries.length ≠ 2 * n * n) := by
  -- with all words numerals only the counts decide
  by_cases hListed : ∃ n entries, Lists text n entries
  · obtain ⟨n, entries, hLists⟩ := hListed
    rw [ofText_of_lists hLists]
    by_cases hOverflow : Word.size ≤ 2 * n * n
    · exact Or.inr (Or.inl ⟨if_pos hOverflow, n, entries, hLists, hOverflow⟩)
    · rw [if_neg hOverflow]
      by_cases hCount : entries.length = 2 * n * n
      · refine Or.inl ⟨halved n entries, if_neg (not_not_intro hCount), square_halved hCount,
          not_le.mp hOverflow, ?_⟩
        rw [halved_append]
        exact hLists
      · refine Or.inr (Or.inr ⟨⟨_, if_pos hCount⟩, fun n' entries' hLists' => ?_⟩)
        obtain ⟨rfl, rfl⟩ := hLists.unique hLists'
        exact ⟨not_le.mp hOverflow, hCount⟩
  · refine Or.inr (Or.inr ⟨?_, fun n entries h => absurd ⟨n, entries, h⟩ hListed⟩)
    exact exists_defect_of_not_lists fun n entries h => hListed ⟨n, entries, h⟩

/-- What is read is what the text lists. -/
theorem ofText_eq_ok_iff {q : Assignment} :
    ofText text = .ok q ↔ q.Square ∧ 2 * q.size * q.size < Word.size ∧
      Lists text q.size (q.flow.toList ++ q.distance.toList) := by
  constructor
  · intro h
    rcases ofText_cases text with ⟨q', hText, hRead⟩ | ⟨hText, -⟩ | ⟨⟨defect, hText⟩, -⟩
    · obtain rfl := Except.ok.inj (h.symm.trans hText)
      exact hRead
    · exact nomatch h.symm.trans hText
    · exact nomatch h.symm.trans hText
  · rintro ⟨hSquare, hWord, hLists⟩
    obtain ⟨hCount, hHalved⟩ := halved_of_square hSquare
    rw [ofText_of_lists hLists, if_neg (not_le.mpr hWord), if_neg (not_not_intro hCount), hHalved]

/-- The reader breaks off when the number of entries is no word. -/
theorem ofText_eq_broken_iff {cause : Breach} :
    ofText text = .error (.broken cause) ↔
      cause = .overflow ∧ ∃ n entries, Lists text n entries ∧ Word.size ≤ 2 * n * n := by
  constructor
  · intro h
    rcases ofText_cases text with ⟨q, hText, -⟩ | ⟨hText, hListed⟩ | ⟨⟨defect, hText⟩, -⟩
    · exact nomatch h.symm.trans hText
    · obtain rfl := Failure.broken.inj (Except.error.inj (h.symm.trans hText))
      exact ⟨rfl, hListed⟩
    · exact nomatch h.symm.trans hText
  · rintro ⟨rfl, n, entries, hLists, hOverflow⟩
    rw [ofText_of_lists hLists, if_pos hOverflow]

/-- A rejected text is malformed. -/
theorem exists_defect_of_rejected {cause : Rejection}
    (h : ofText text = .error (.rejected cause)) : ∃ defect, cause = .malformedInstance defect := by
  rcases ofText_cases text with ⟨q, hText, -⟩ | ⟨hText, -⟩ | ⟨⟨defect, hText⟩, -⟩
  · exact nomatch h.symm.trans hText
  · exact nomatch h.symm.trans hText
  · exact ⟨defect, Failure.rejected.inj (Except.error.inj (h.symm.trans hText))⟩

/-- A text cannot list more entries than there are words, unless it is longer than that itself. -/
theorem exists_ofText_iff (hLength : text.length < Word.size) :
    (∃ q, ofText text = .ok q) ↔
      ∃ n entries, Lists text n entries ∧ entries.length = 2 * n * n := by
  constructor
  · rintro ⟨q, hText⟩
    obtain ⟨hSquare, -, hLists⟩ := ofText_eq_ok_iff.mp hText
    exact ⟨q.size, _, hLists, (halved_of_square hSquare).1⟩
  · rintro ⟨n, entries, hLists, hCount⟩
    have hShort := hLists.length_lt
    refine ⟨halved n entries, ?_⟩
    rw [ofText_of_lists hLists, if_neg (by omega), if_neg (not_not_intro hCount)]

/-- **Which texts are read.** A text is read exactly if it lists a size `n` and `2 * n * n` entries
and that number is a word, and what is read are the matrices that it lists. It breaks the reader
off exactly if it lists a size for which that number is no word, and any other text is rejected as
malformed. For a text in memory, the number is a word if there are so many entries. -/
theorem ofText_classified (text : String) :
    (∀ q, ofText text = .ok q ↔ q.Square ∧ 2 * q.size * q.size < Word.size ∧
      Lists text q.size (q.flow.toList ++ q.distance.toList)) ∧
    (∀ cause, ofText text = .error (.broken cause) ↔
      cause = .overflow ∧ ∃ n entries, Lists text n entries ∧ Word.size ≤ 2 * n * n) ∧
    (∀ cause, ofText text = .error (.rejected cause) →
      ∃ defect, cause = .malformedInstance defect) ∧
    (text.length < Word.size → ((∃ q, ofText text = .ok q) ↔
      ∃ n entries, Lists text n entries ∧ entries.length = 2 * n * n)) :=
  ⟨fun _ => ofText_eq_ok_iff, fun _ => ofText_eq_broken_iff, fun _ => exists_defect_of_rejected,
    exists_ofText_iff⟩

theorem ofText_classified_one_cell :
    "1 5 -7".length < Word.size ∧ Lists "1 5 -7" 1 [5, -7] ∧
    ofText "1 5 -7" = .ok ⟨1, #[5], #[-7]⟩ ∧
    ((∃ q, ofText "1 5 -7" = .ok q) ↔
      ∃ n entries, Lists "1 5 -7" n entries ∧ entries.length = 2 * n * n) := by
  have hLength : "1 5 -7".length < Word.size := by decide
  have hLists : Lists "1 5 -7" 1 [5, -7] :=
    ⟨['1'], [['5'], ['-', '7']], by decide, by decide, by decide⟩
  obtain ⟨hRead, -, -, hInMemory⟩ := ofText_classified "1 5 -7"
  exact ⟨hLength, hLists, (hRead ⟨1, #[5], #[-7]⟩).mpr ⟨⟨rfl, rfl⟩, by decide, hLists⟩,
    hInMemory hLength⟩

/-- A size beyond the reach of words breaks the reader off, where no entries at all follow. -/
theorem ofText_breaks_off :
    let text := "9223372036854775808"
    Lists text 9223372036854775808 [] ∧ ofText text = .error (.broken .overflow) ∧
      ¬ ((∃ q, ofText text = .ok q) ∨
        ∃ defect, ofText text = .error (.rejected (.malformedInstance defect))) := by
  intro text
  have hText : ofText text = .error (.broken .overflow) := by decide +kernel
  refine ⟨⟨text.toList, [], by decide +kernel, by decide +kernel, rfl⟩, hText, ?_⟩
  rintro (⟨q, hRead⟩ | ⟨defect, hRejected⟩)
  · exact nomatch hText.symm.trans hRead
  · exact nomatch hText.symm.trans hRejected

end Assignment

end SwapSearch
