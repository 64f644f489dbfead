import Mathlib.Data.List.Basic
import SwapSearch.Proofs.Assignment.Printing

/-!
# SwapSearch — the texts that are lists of instances

Several instances that share their distances are read from the rows of one text, the lines
after the first that are not blank. The width of the first row is the size of all
instances, so nothing else in the text says how many rows a matrix has. The rows are read
exactly if they *fill* the distances and one or more flows of that width; then they
*spell* the instances, matrix after matrix.

The width is a divisor, and it is never zero: a line that is not blank has a word. Nor does
the arithmetic overflow on a text in memory, which has room for the rows it is made of.

## Results

* `readRows_cases` — the rows of a text, or why it has none.
* `listOfRows_of_fills`, `exists_defect_of_not_fills` — what becomes of the rows.
* `listOfText_classified` — which texts are read, and as what; all others are malformed.
-/

namespace SwapSearch.Assignment

variable {text : String} {n k : Nat} {rows : List (List Int)} {qs : List Assignment}

-- ---------------------------------------------------------------------------
-- Rows
-- ---------------------------------------------------------------------------

/-- The text has these rows: they are the numerals of its lines after the first that are not
blank. -/
def Tabulates (text : String) (rows : List (List Int)) : Prop :=
  (Text.table (Text.lines text.toList).tail).map (·.map Text.signed?) = rows.map (·.map some)

instance (text : String) (rows : List (List Int)) : Decidable (Tabulates text rows) :=
  inferInstanceAs (Decidable (_ = _))

/-- The rows fill the distances and `k` flows of width `n`, and at least one. -/
structure Fills (n k : Nat) (rows : List (List Int)) : Prop where
  width_pos : 1 ≤ n
  flows_pos : 1 ≤ k
  width : ∀ row ∈ rows, row.length = n
  height : rows.length = (k + 1) * n

/-- The rows are the shared distances and then the flows of the instances, one after the other. -/
structure Spells (n : Nat) (rows : List (List Int)) (qs : List Assignment) : Prop where
  size : ∀ q ∈ qs, q.size = n
  square : ∀ q ∈ qs, q.Square
  entries : ∃ distance : Array Int, (∀ q ∈ qs, q.distance = distance) ∧
    rows.flatten = distance.toList ++ qs.flatMap (·.flow.toList)

theorem map_some_injective : Function.Injective fun row : List Int => row.map some :=
  List.map_injective_iff.mpr (Option.some_injective Int)

/-- A text has one table of rows at most. -/
theorem Tabulates.unique {rows' : List (List Int)} (h : Tabulates text rows)
    (h' : Tabulates text rows') : rows = rows' :=
  List.map_injective_iff.mpr map_some_injective (h.symm.trans h')

/-- No row is empty, since its line is not blank. -/
theorem Tabulates.length_pos (h : Tabulates text rows) : ∀ row ∈ rows, 1 ≤ row.length := by
  intro row hRow
  have hMem : row.map some ∈ rows.map (·.map some) := List.mem_map_of_mem hRow
  rw [← h] at hMem
  obtain ⟨line, hLine, hEq⟩ := List.mem_map.mp hMem
  have hLength := congrArg List.length hEq
  have hSome := List.length_pos_iff.mpr (Text.ne_nil_of_mem_table hLine)
  simp only [List.length_map] at hLength
  omega

/-- The text has two characters for each entry. -/
theorem Tabulates.two_mul_length_le (h : Tabulates text rows) :
    2 * rows.flatten.length ≤ text.length := by
  have hFlat := congrArg List.flatten h
  rw [← List.map_flatten, ← List.map_flatten, Text.flatten_table] at hFlat
  have hCount := congrArg List.length hFlat
  have hWords := Text.two_mul_length_later_words_le text.toList
  simp only [List.length_map, String.length_toList] at hCount hWords
  omega

theorem length_flatten_of_width (h : ∀ row ∈ rows, row.length = n) :
    rows.flatten.length = rows.length * n := by
  induction rows with
  | nil => simp
  | cons row rows ih =>
    obtain ⟨hHead, hTail⟩ := List.forall_mem_cons.mp h
    rw [List.flatten_cons, List.length_append, hHead, ih hTail, List.length_cons, Nat.succ_mul]
    omega

/-- Trimming tells which lines are rows. -/
theorem readRows_eq (text : String) :
    readRows text = (Text.table (Text.lines text.toList).tail).mapM readEntries := by
  have hFilter : (fun line => !(Text.trim line).isEmpty) =
      fun line => decide (¬ Text.Blank line) := by
    funext line
    rw [Bool.eq_iff_iff]
    simp [← Text.trim_eq_nil_iff]
  unfold readRows Text.table
  rw [hFilter, List.mapM_map]
  rfl

/-- The table is read row by row, up to the first token that is no numeral. -/
theorem mapM_readEntries_cases (table : List (List (List Char))) :
    (∃ rows, table.mapM readEntries = .ok rows ∧
      table.map (·.map Text.signed?) = rows.map (·.map some)) ∨
    (∃ line ∈ table, ∃ token ∈ line, Text.signed? token = none) ∧
      ∃ defect, table.mapM readEntries = .error (.malformedInstance defect) := by
  rcases mapM_cases readEntries table with ⟨rows, hAll, hEach⟩ | ⟨line, hLine, e, hError, hAll⟩
  · refine Or.inl ⟨rows, hAll, map_eq_of_forall₂ (hEach.imp fun line row hRead => ?_)⟩
    rcases readEntries_cases line with ⟨row', hOk, hNumerals⟩ | ⟨_, _, _, hError⟩
    · rw [hNumerals, Except.ok.inj (hOk.symm.trans hRead)]
    · exact nomatch hError.symm.trans hRead
  · rcases readEntries_cases line with ⟨row, hOk, -⟩ | ⟨token, hToken, hNone, hBad⟩
    · exact nomatch hOk.symm.trans hError
    · exact Or.inr ⟨⟨line, hLine, token, hToken, hNone⟩, .badEntry (String.ofList token),
        Except.error.inj (hError.symm.trans hBad) ▸ hAll⟩

/-- A text has rows, or one of its words is no numeral. -/
theorem readRows_cases (text : String) :
    (∃ rows, readRows text = .ok rows ∧ Tabulates text rows) ∨
    (∀ rows, ¬ Tabulates text rows) ∧
      ∃ defect, readRows text = .error (.malformedInstance defect) := by
  rw [readRows_eq]
  rcases mapM_readEntries_cases (Text.table (Text.lines text.toList).tail) with
    ⟨rows, hRead, hRows⟩ | ⟨⟨line, hLine, token, hToken, hNone⟩, hRead⟩
  · exact Or.inl ⟨rows, hRead, hRows⟩
  · refine Or.inr ⟨fun rows hRows => ?_, hRead⟩
    have hMem := List.mem_map_of_mem (f := (·.map Text.signed?)) hLine
    unfold Tabulates at hRows
    rw [hRows] at hMem
    obtain ⟨row, -, hRow⟩ := List.mem_map.mp hMem
    have hThere : none ∈ row.map some := by
      rw [hRow, ← hNone]
      exact List.mem_map_of_mem hToken
    simp at hThere

-- ---------------------------------------------------------------------------
-- Blocks of rows
-- ---------------------------------------------------------------------------

/-- The instances whose flows are the blocks after the first. -/
def instances (n k : Nat) (rows : List (List Int)) : List Assignment :=
  (List.range k).map fun j => ⟨n, block n (j + 1) rows, block n 0 rows⟩

/-- The blocks follow each other. -/
theorem flatMap_block (n k : Nat) (rows : List (List Int)) :
    (List.range k).flatMap (fun j => (block n j rows).toList) = (rows.take (k * n)).flatten := by
  induction k with
  | zero => simp
  | succ k ih =>
    rw [List.range_succ, List.flatMap_append, ih, Nat.succ_mul, List.take_add, List.flatten_append]
    simp [block]

theorem size_block (hWidth : ∀ row ∈ rows, row.length = n) {j : Nat}
    (hRoom : (j + 1) * n ≤ rows.length) : (block n j rows).size = n * n := by
  have hInside : ∀ row ∈ (rows.drop (j * n)).take n, row.length = n :=
    fun row hRow => hWidth row (List.mem_of_mem_drop (List.mem_of_mem_take hRow))
  have hCount : ((rows.drop (j * n)).take n).length = n := by
    rw [Nat.succ_mul] at hRoom
    simp
    omega
  unfold block
  rw [List.size_toArray, length_flatten_of_width hInside, hCount]

theorem Fills.square (h : Fills n k rows) :
    ∀ j < k, (⟨n, block n (j + 1) rows, block n 0 rows⟩ : Assignment).Square := by
  intro j hj
  have hRoom : (j + 1 + 1) * n ≤ rows.length := by
    rw [h.height]
    exact Nat.mul_le_mul_right n (by omega)
  have hFirst : (0 + 1) * n ≤ rows.length := by
    rw [h.height]
    exact Nat.mul_le_mul_right n (by omega)
  exact ⟨size_block h.width hRoom, size_block h.width hFirst⟩

/-- The rows spell the instances made of their blocks. -/
theorem spells_instances (h : Fills n k rows) : Spells n rows (instances n k rows) := by
  refine ⟨fun q hq => ?_, fun q hq => ?_, block n 0 rows, fun q hq => ?_, ?_⟩
  · obtain ⟨j, -, rfl⟩ := List.mem_map.mp hq
    rfl
  · obtain ⟨j, hj, rfl⟩ := List.mem_map.mp hq
    exact h.square j (List.mem_range.mp hj)
  · obtain ⟨j, -, rfl⟩ := List.mem_map.mp hq
    rfl
  · have hBlocks := flatMap_block n (k + 1) rows
    rw [← h.height, List.take_length, List.range_succ_eq_map, List.flatMap_cons,
      List.flatMap_map] at hBlocks
    rw [← hBlocks, instances, List.flatMap_map]

/-- Matrices of one size that are written one after the other can be told apart. -/
theorem eq_of_flatMap_flow {qs qs' : List Assignment} (hLength : qs.length = qs'.length)
    (hSize : ∀ q ∈ qs, q.flow.size = n * n) (hSize' : ∀ q ∈ qs', q.flow.size = n * n)
    (h : qs.flatMap (·.flow.toList) = qs'.flatMap (·.flow.toList)) :
    qs.map (·.flow) = qs'.map (·.flow) := by
  induction qs generalizing qs' with
  | nil =>
    obtain rfl := List.length_eq_zero_iff.mp hLength.symm
    rfl
  | cons q qs ih =>
    cases qs' with
    | nil => simp at hLength
    | cons q' qs' =>
      obtain ⟨hFirst, hRest⟩ := List.forall_mem_cons.mp hSize
      obtain ⟨hFirst', hRest'⟩ := List.forall_mem_cons.mp hSize'
      rw [List.flatMap_cons, List.flatMap_cons] at h
      -- the blocks have one length, so the texts split at the same place
      obtain ⟨hHead, hTail⟩ := List.append_inj h (by simp [hFirst, hFirst'])
      rw [List.map_cons, List.map_cons, Array.toList_inj.mp hHead,
        ih (by simpa using hLength) hRest hRest' hTail]

/-- Instances of one size and one matrix of distances are told apart by their flows. -/
theorem eq_map_flow {distance : Array Int} (hSize : ∀ q ∈ qs, q.size = n)
    (hDistance : ∀ q ∈ qs, q.distance = distance) :
    qs = (qs.map (·.flow)).map fun flow => ⟨n, flow, distance⟩ := by
  rw [List.map_map]
  refine (List.map_id qs).symm.trans (List.map_congr_left fun q hq => ?_)
  rw [Function.comp_apply, ← hSize q hq, ← hDistance q hq]
  rfl

/-- The rows spell one list of so many instances at most. -/
theorem Spells.unique {qs' : List Assignment} (h : Spells n rows qs) (h' : Spells n rows qs')
    (hSome : 1 ≤ qs.length) (hLength : qs.length = qs'.length) : qs = qs' := by
  obtain ⟨distance, hDistance, hRows⟩ := h.entries
  obtain ⟨distance', hDistance', hRows'⟩ := h'.entries
  have hFlow : ∀ q ∈ qs, q.flow.size = n * n := fun q hq => h.size q hq ▸ (h.square q hq).flow
  have hFlow' : ∀ q ∈ qs', q.flow.size = n * n := fun q hq => h'.size q hq ▸ (h'.square q hq).flow
  have hCells : distance.toList.length = n * n := by
    obtain ⟨q, hq⟩ := List.exists_mem_of_length_pos hSome
    exact hDistance q hq ▸ h.size q hq ▸ (h.square q hq).distance
  have hCells' : distance'.toList.length = n * n := by
    obtain ⟨q, hq⟩ := List.exists_mem_of_length_pos (hLength ▸ hSome)
    exact hDistance' q hq ▸ h'.size q hq ▸ (h'.square q hq).distance
  obtain ⟨hHead, hTail⟩ := List.append_inj (hRows.symm.trans hRows') (by rw [hCells, hCells'])
  rw [eq_map_flow h.size hDistance, eq_map_flow h'.size hDistance',
    eq_of_flatMap_flow hLength hFlow hFlow' hTail, Array.toList_inj.mp hHead]

-- ---------------------------------------------------------------------------
-- Reading
-- ---------------------------------------------------------------------------

/-- With a positive width the rows can be counted. -/
theorem isIncomplete_eq {height : Nat} (hWidth : 1 ≤ n) (hWord : 2 * n < Word.size) :
    isIncomplete n height = .ok (decide (height < 2 * n ∨ height % n ≠ 0)) := by
  have hLeast : Word.checked (2 * n) = .ok (2 * n) := if_pos hWord
  have hRest : Word.remainder height n = .ok (height % n) := if_neg (by omega)
  unfold isIncomplete
  rw [hLeast, hRest]
  show (if height < 2 * n then Except.ok true else Except.ok (decide (height % n ≠ 0))) = _
  by_cases hShort : height < 2 * n <;> simp [hShort]

/-- Complete rows make up two or more matrices. -/
theorem exists_fills_iff (hWidth : ∀ row ∈ rows, row.length = n) (hPositive : 1 ≤ n) :
    (∃ k, Fills n k rows) ↔ ¬ (rows.length < 2 * n ∨ rows.length % n ≠ 0) := by
  constructor
  · rintro ⟨k, hFills⟩
    have hTwo : 2 * n ≤ (k + 1) * n := Nat.mul_le_mul_right n (by have := hFills.flows_pos; omega)
    rw [hFills.height, Nat.mul_mod_left]
    omega
  · intro h
    have hRest : rows.length % n = 0 := by omega
    have hQuotient : rows.length / n * n = rows.length :=
      Nat.div_mul_cancel (Nat.dvd_of_mod_eq_zero hRest)
    have hTwo : 2 ≤ rows.length / n := (Nat.le_div_iff_mul_le hPositive).mpr (by omega)
    exact ⟨rows.length / n - 1, hPositive, by omega, hWidth, by
      rw [Nat.sub_add_cancel (by omega), hQuotient]⟩

/-- Rows that fill matrices are read as the instances made of their blocks. -/
theorem listOfRows_of_fills (h : Fills n k rows) (hRoom : 2 * rows.flatten.length < Word.size) :
    listOfRows rows = .ok (instances n k rows) := by
  have hWidth := h.width_pos
  have hFlows := h.flows_pos
  have hHeight := h.height
  have hCells : rows.flatten.length = rows.length * n := length_flatten_of_width h.width
  have hTwo : 2 * n ≤ rows.length := by
    rw [hHeight]
    exact Nat.mul_le_mul_right n (by omega)
  have hSquare : n * n ≤ rows.length * n := Nat.mul_le_mul_right n (by omega)
  -- the check for missing rows passes, without overflow in its product
  have hComplete : isIncomplete n rows.length = .ok false := by
    have hLess : rows.length ≤ rows.length * n := Nat.le_mul_of_pos_right _ hWidth
    have hExists := (exists_fills_iff h.width hWidth).mp ⟨k, h⟩
    rw [isIncomplete_eq hWidth (by omega)]
    simpa using hExists
  -- the number of rows gives the number of flows back
  have hQuotient : rows.length / n - 1 = k := by
    rw [hHeight, Nat.mul_div_cancel _ hWidth]
    omega
  -- every flow comes out square together with the distances, the first block
  have hMatrices : (List.range k).mapM
      (fun j => ofMatrices n (block n (j + 1) rows) (block n 0 rows)) =
      .ok (instances n k rows) := by
    refine mapM_eq_of_forall₂ (R := Eq) (List.forall₂_refl (List.range k)) fun j _ hj hSame => ?_
    subst hSame
    exact ofMatrices_of_square (h.square j (List.mem_range.mp hj)) (show n * n < Word.size by omega)
  cases rows with
  | nil => simp at hTwo; omega
  | cons first rest =>
    have hFirst : first.length = n := h.width first List.mem_cons_self
    -- no row is ragged
    have hEven : (first :: rest).any (·.length ≠ first.length) = false := by
      rw [List.any_eq_false]
      intro row hRow
      simp [h.width row hRow, hFirst]
    unfold listOfRows
    dsimp only
    rw [hEven, hFirst, hComplete, hQuotient]
    exact hMatrices

/-- Rows that do not fill matrices are rejected. -/
theorem exists_defect_of_not_fills (hPositive : ∀ row ∈ rows, 1 ≤ row.length)
    (hRoom : 2 * rows.flatten.length < Word.size) (h : ∀ n k, ¬ Fills n k rows) :
    ∃ defect, listOfRows rows = .error (.rejected (.malformedInstance defect)) := by
  cases rows with
  | nil => exact ⟨.noRows, rfl⟩
  | cons first rest =>
    have hWidth : 1 ≤ first.length := hPositive first List.mem_cons_self
    unfold listOfRows
    dsimp only
    cases hEven : (first :: rest).any (·.length ≠ first.length) with
    | true => exact ⟨.raggedRows first.length, rfl⟩
    | false =>
      have hSame : ∀ row ∈ first :: rest, row.length = first.length := by
        intro row hRow
        simpa using List.any_eq_false.mp hEven row hRow
      -- even rows that fill nothing are too few, or end inside a matrix
      have hIncomplete : (first :: rest).length < 2 * first.length ∨
          (first :: rest).length % first.length ≠ 0 := by
        by_contra hComplete
        obtain ⟨k, hFills⟩ := (exists_fills_iff hSame hWidth).mpr hComplete
        exact h _ k hFills
      have hFirst : first.length ≤ (first :: rest).flatten.length := by simp
      rw [isIncomplete_eq hWidth (by omega), decide_eq_true hIncomplete]
      exact ⟨.rowCount (first :: rest).length, rfl⟩

/-- Reading a text ends with the instances its rows fill, or with a rejection. -/
theorem listOfText_cases (hLength : text.length < Word.size) :
    (∃ n k rows, Tabulates text rows ∧ Fills n k rows ∧
      listOfText text = .ok (instances n k rows)) ∨
    (∀ n k rows, Tabulates text rows → ¬ Fills n k rows) ∧
      ∃ defect, listOfText text = .error (.rejected (.malformedInstance defect)) := by
  unfold listOfText
  rcases readRows_cases text with ⟨rows, hRead, hRows⟩ | ⟨hNone, defect, hRead⟩
  · -- a row spends a character on every entry, so the entries fit the text
    have hRoom : 2 * rows.flatten.length < Word.size := by
      have := hRows.two_mul_length_le
      omega
    rw [hRead]
    by_cases hFills : ∃ n k, Fills n k rows
    · obtain ⟨n, k, hFills⟩ := hFills
      exact Or.inl ⟨n, k, rows, hRows, hFills, listOfRows_of_fills hFills hRoom⟩
    · have hNot : ∀ n k, ¬ Fills n k rows := fun n k h => hFills ⟨n, k, h⟩
      refine Or.inr ⟨fun n k rows' hRows' => ?_,
        exists_defect_of_not_fills hRows.length_pos hRoom hNot⟩
      rw [hRows'.unique hRows]
      exact hNot n k
  · rw [hRead]
    exact Or.inr ⟨fun _ _ rows hRows => absurd hRows (hNone rows), defect, rfl⟩

/-- The rows that a text has fill matrices of one width only, and of one number. -/
theorem Fills.unique {n' k' : Nat} (h : Fills n k rows) (h' : Fills n' k' rows) :
    n = n' ∧ k = k' := by
  have hSome : 0 < rows.length := by
    rw [h.height]
    exact Nat.mul_pos (by omega) h.width_pos
  obtain ⟨row, hRow⟩ := List.exists_mem_of_length_pos hSome
  obtain rfl : n = n' := (h.width row hRow).symm.trans (h'.width row hRow)
  have hHeight : (k + 1) * n = (k' + 1) * n := h.height.symm.trans h'.height
  have hCount := Nat.eq_of_mul_eq_mul_right h.width_pos hHeight
  exact ⟨rfl, by omega⟩

theorem length_instances (n k : Nat) (rows : List (List Int)) :
    (instances n k rows).length = k := by
  simp [instances]

/-- What is read is what the rows spell. -/
theorem listOfText_eq_ok_iff (hLength : text.length < Word.size) :
    listOfText text = .ok qs ↔
      ∃ n rows, Tabulates text rows ∧ Fills n qs.length rows ∧ Spells n rows qs := by
  rcases listOfText_cases hLength with ⟨n, k, rows, hRows, hFills, hRead⟩ | ⟨hNone, defect, hRead⟩
  · rw [hRead, Except.ok.injEq]
    constructor
    · rintro rfl
      rw [length_instances]
      exact ⟨n, rows, hRows, hFills, spells_instances hFills⟩
    · -- the rows of a text are unique, and so are the size and the count they fill
      rintro ⟨n', rows', hRows', hFills', hSpells⟩
      obtain rfl := hRows.unique hRows'
      obtain ⟨rfl, rfl⟩ := hFills.unique hFills'
      exact (spells_instances hFills).unique hSpells
        (by rw [length_instances]; exact hFills.flows_pos) (length_instances ..)
  · rw [hRead]
    refine ⟨nofun, ?_⟩
    rintro ⟨n, rows, hRows, hFills, -⟩
    exact absurd hFills (hNone _ _ _ hRows)

-- ---------------------------------------------------------------------------
-- Printed rows
-- ---------------------------------------------------------------------------

/-- The line consists of the numerals of the row, set apart by blanks. -/
def PrintsRow (row : List Int) (line : List Char) : Prop :=
  Text.Spaced (row.map Text.decimal) line

/-- A text prints rows as lines joined by newlines, with a header in front and blank lines
anywhere. -/
structure PrintsRows (rows : List (List Int)) (text : String) (header : List Char)
    (body : List (List Char)) : Prop where
  text_eq : text.toList = ['\n'].intercalate (header :: body)
  unbroken : ∀ line ∈ header :: body, '\n' ∉ line
  rows : List.Forall₂ PrintsRow rows (body.filter fun line => ¬ Text.Blank line)

theorem PrintsRow.words_eq {row : List Int} {line : List Char} (h : PrintsRow row line) :
    Text.words line = row.map Text.decimal := by
  refine Text.words_of_spaced h fun word hWord => ?_
  obtain ⟨x, -, rfl⟩ := List.mem_map.mp hWord
  exact Text.isWord_decimal x

theorem printsRow_of_words {row : List Int} {line : List Char}
    (h : Text.words line = row.map Text.decimal) : PrintsRow row line := by
  unfold PrintsRow
  rw [← h]
  exact Text.spaced_words line

/-- The rows of a text that prints rows are those rows. -/
theorem PrintsRows.tabulates {header : List Char} {body : List (List Char)}
    (h : PrintsRows rows text header body) (hFits : ∀ row ∈ rows, ∀ x ∈ row, Signed.Fits x) :
    Tabulates text rows := by
  have hTable : rows.map (·.map Text.decimal) = Text.table body :=
    map_eq_of_forall₂ (h.rows.imp fun _ _ hRow => hRow.words_eq.symm)
  unfold Tabulates
  rw [h.text_eq, Text.table_tail_lines_intercalate h.unbroken, ← hTable, List.map_map]
  exact List.map_congr_left fun row hRow => signed?_map_decimal (hFits row hRow)

/-- **Which texts are lists of instances.** A text in memory is read exactly if its rows fill the
distances and `k` flows of the width of a row, at least one; there are then `k` instances, which
the rows spell. No text breaks the reader off: whatever else it is given is malformed. So instances
that are printed row by row, below a header and with any blank lines in between, are read back in
order. -/
theorem listOfText_classified (hLength : text.length < Word.size) :
    (∀ k, (∃ qs, listOfText text = .ok qs ∧ qs.length = k) ↔
      ∃ n rows, Tabulates text rows ∧ Fills n k rows) ∧
    (∀ qs, listOfText text = .ok qs ↔
      ∃ n rows, Tabulates text rows ∧ Fills n qs.length rows ∧ Spells n rows qs) ∧
    (∀ failure, listOfText text = .error failure →
      ∃ defect, failure = .rejected (.malformedInstance defect)) ∧
    ∀ n rows qs header body, PrintsRows rows text header body →
      (∀ row ∈ rows, ∀ x ∈ row, Signed.Fits x) → Fills n qs.length rows → Spells n rows qs →
      listOfText text = .ok qs := by
  refine ⟨fun k => ?_, fun qs => listOfText_eq_ok_iff hLength, fun failure hFailure => ?_,
    fun n rows qs header body hPrints hFits hFills hSpells => ?_⟩
  · constructor
    · rintro ⟨qs, hRead, rfl⟩
      obtain ⟨n, rows, hRows, hFills, -⟩ := (listOfText_eq_ok_iff hLength).mp hRead
      exact ⟨n, rows, hRows, hFills⟩
    · rintro ⟨n, rows, hRows, hFills⟩
      have hCount := length_instances n k rows
      refine ⟨instances n k rows, (listOfText_eq_ok_iff hLength).mpr ⟨n, rows, hRows, ?_⟩, hCount⟩
      rw [hCount]
      exact ⟨hFills, spells_instances hFills⟩
  · rcases listOfText_cases hLength with ⟨n, k, rows, -, -, hRead⟩ | ⟨-, defect, hRead⟩
    · exact nomatch hRead.symm.trans hFailure
    · exact ⟨defect, Except.error.inj (hFailure.symm.trans hRead)⟩
  · exact (listOfText_eq_ok_iff hLength).mpr ⟨n, rows, hPrints.tabulates hFits, hFills, hSpells⟩

/-- Two instances of two positions. -/
theorem listOfText_classified_two_flows :
    let text := "n=2 k=2\n0 3\r\n3 0\n \t\n\n0 1\n-2\u00a00\n\n 5  -6 \n7 8\n"
    let rows : List (List Int) := [[0, 3], [3, 0], [0, 1], [-2, 0], [5, -6], [7, 8]]
    let qs : List Assignment :=
      [⟨2, #[0, 1, -2, 0], #[0, 3, 3, 0]⟩, ⟨2, #[5, -6, 7, 8], #[0, 3, 3, 0]⟩]
    text.length < Word.size ∧ Tabulates text rows ∧ Fills 2 2 rows ∧ Spells 2 rows qs ∧
      (∃ qs, listOfText text = .ok qs ∧ qs.length = 2) ∧ listOfText text = .ok qs ∧
      ∃ header body, PrintsRows rows text header body := by
  intro text rows qs
  have hLength : text.length < Word.size := by decide +kernel
  have hTabulates : Tabulates text rows := by decide +kernel
  have hFills : Fills 2 2 rows := ⟨by decide, by decide, by decide, by decide⟩
  have hSpells : Spells 2 rows qs := by
    refine ⟨by decide, fun q hq => ?_, #[0, 3, 3, 0], by decide, by decide⟩
    simp only [qs, List.mem_cons, List.not_mem_nil, or_false] at hq
    rcases hq with rfl | rfl <;> exact ⟨rfl, rfl⟩
  -- blank lines and the carriage return are read over
  have hPrints : PrintsRows rows text "n=2 k=2".toList
      ["0 3\r".toList, "3 0".toList, " \t".toList, [], "0 1".toList, "-2\u00a00".toList, [],
        " 5  -6 ".toList, "7 8".toList, []] := by
    refine ⟨by decide +kernel, by decide +kernel, ?_⟩
    -- only the lines that are not blank print a row
    have hFilter : ["0 3\r".toList, "3 0".toList, " \t".toList, [], "0 1".toList,
          "-2\u00a00".toList, [], " 5  -6 ".toList, "7 8".toList, []].filter
        (fun line => ¬ Text.Blank line) =
        ["0 3\r".toList, "3 0".toList, "0 1".toList, "-2\u00a00".toList, " 5  -6 ".toList,
          "7 8".toList] := by decide +kernel
    rw [hFilter]
    exact .cons (printsRow_of_words (by decide +kernel)) <|
      .cons (printsRow_of_words (by decide +kernel)) <|
      .cons (printsRow_of_words (by decide +kernel)) <|
      .cons (printsRow_of_words (by decide +kernel)) <|
      .cons (printsRow_of_words (by decide +kernel)) <|
      .cons (printsRow_of_words (by decide +kernel)) .nil
  obtain ⟨hCount, hRead, -, hPrinted⟩ := listOfText_classified hLength
  exact ⟨hLength, hTabulates, hFills, hSpells, (hCount 2).mpr ⟨2, rows, hTabulates, hFills⟩,
    hPrinted 2 rows qs _ _ hPrints (by decide) hFills hSpells, _, _, hPrints⟩

end SwapSearch.Assignment
