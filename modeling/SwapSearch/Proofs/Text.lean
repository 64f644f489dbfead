import Mathlib.Data.List.Basic
import Mathlib.Data.List.TakeWhile
import SwapSearch.Text.Words
import SwapSearch.Text.Numeral

/-!
# SwapSearch — texts and what is printed in them

Words and lines are cuts of a text, and one equation says all there is to know of a cut:
the pieces on both sides of a character that is cut at are found independently. So the
words of a text that is put together of words and gaps are those words, whatever the gaps
are, and the lines of lines that are joined by newlines are those lines.

A carriage return is blank. The one that a line gives up at its end is therefore never seen
in the words of the line.

A numeral is read digit by digit, and the digits of a number lead back to it.

## Results

* `words_of_spaced`, `spaced_words` — words set apart by blanks are found again, and every text
  is such a text.
* `trim_eq_nil_iff`, `words_eq_nil_iff` — both say that a text is blank.
* `lines_append_newline`, `flatMap_words_lines` — lines, one at a time, and their words.
* `two_mul_length_words_le` — a word and the blank after it take two characters.
* `table_lines_intercalate` — the words of lines that are joined by newlines.
* `unsigned?_decimal`, `signed?_decimal` — printed numbers are read back.
-/

namespace SwapSearch.Text

-- ---------------------------------------------------------------------------
-- Pieces
-- ---------------------------------------------------------------------------

section Pieces

variable (p : Char → Bool)

/-- Cutting loses the characters cut at and no others. -/
theorem flatten_pieces (text : List Char) :
    (pieces p text).flatten = text.filter (!p ·) := by
  induction text with
  | nil => rfl
  | cons c rest ih =>
    rw [pieces, List.filter_cons]
    by_cases hCut : p c = true
    · simp [hCut, ih]
    · cases hPieces : pieces p rest <;> simp_all

/-- Every character is in a piece or ends one, and the last piece ends without. -/
theorem length_pieces (text : List Char) :
    (pieces p text).flatten.length + (pieces p text).length = text.length + 1 := by
  induction text with
  | nil => rfl
  | cons c rest ih =>
    rw [pieces]
    by_cases hCut : p c = true
    · simp [hCut] at ih ⊢
      omega
    · cases hPieces : pieces p rest with
      | nil => simp [hPieces] at ih
      | cons piece more =>
        simp [hCut, hPieces] at ih ⊢
        omega

theorem pieces_ne_nil (text : List Char) : pieces p text ≠ [] := by
  intro h
  have hLength := length_pieces p text
  simp [h] at hLength

theorem pieces_append_of_not {text : List Char} (h : ∀ c ∈ text, p c = false) (rest : List Char) :
    ∃ piece more, pieces p rest = piece :: more ∧
      pieces p (text ++ rest) = (text ++ piece) :: more := by
  induction text with
  | nil =>
    obtain ⟨piece, more, hRest⟩ := List.exists_cons_of_ne_nil (pieces_ne_nil p rest)
    exact ⟨piece, more, hRest, hRest⟩
  | cons c text ih =>
    obtain ⟨hHead, hTail⟩ := List.forall_mem_cons.mp h
    obtain ⟨piece, more, hRest, hText⟩ := ih hTail
    refine ⟨piece, more, hRest, ?_⟩
    simp [pieces, hHead, hText]

/-- What is not cut is one piece. -/
theorem pieces_of_not {text : List Char} (h : ∀ c ∈ text, p c = false) :
    pieces p text = [text] := by
  obtain ⟨piece, more, hNil, hText⟩ := pieces_append_of_not p h []
  obtain ⟨rfl, rfl⟩ := List.cons.inj hNil
  simpa using hText

/-- **The pieces on both sides of a cut** are found independently. -/
theorem pieces_append_cut {c : Char} (hCut : p c = true) (left right : List Char) :
    pieces p (left ++ c :: right) = pieces p left ++ pieces p right := by
  induction left with
  | nil => simp [pieces, hCut]
  | cons x left ih =>
    rw [List.cons_append, pieces, pieces, ih]
    by_cases hHead : p x = true
    · simp [hHead]
    · obtain ⟨piece, more, hLeft⟩ := List.exists_cons_of_ne_nil (pieces_ne_nil p left)
      simp [hHead, hLeft]

/-- Every piece that is not empty takes a character. -/
theorem length_filter_le_flatten {β : Type} (pieces : List (List β)) :
    (pieces.filter (!·.isEmpty)).length ≤ pieces.flatten.length := by
  induction pieces with
  | nil => exact Nat.le_refl _
  | cons piece rest ih =>
    cases piece with
    | nil => simpa using ih
    | cons c piece =>
      simp only [List.isEmpty_cons, Bool.not_false, List.filter_cons_of_pos, List.length_cons,
        List.flatten_cons, List.length_append]
      omega

end Pieces

-- ---------------------------------------------------------------------------
-- Words
-- ---------------------------------------------------------------------------

/-- All characters are blank. -/
def Blank (text : List Char) : Prop := ∀ c ∈ text, isBlank c = true

instance (text : List Char) : Decidable (Blank text) :=
  List.decidableBAll (fun c => isBlank c = true) text

/-- At least one character, and none that is blank. -/
def IsWord (word : List Char) : Prop := word ≠ [] ∧ ∀ c ∈ word, isBlank c = false

/-- The text consists of the words in this order, set apart by blanks: a run between any two of
them that is not empty, and any runs before the first and after the last. -/
inductive Spaced : List (List Char) → List Char → Prop
  | nil {gap : List Char} (hGap : Blank gap) : Spaced [] gap
  | cons {gap word rest : List Char} {words : List (List Char)} (hGap : Blank gap)
      (hRest : Spaced words rest) (hApart : ∀ c ∈ rest.head?, isBlank c = true) :
      Spaced (word :: words) (gap ++ word ++ rest)

theorem length_words_le (text : List Char) : (words text).length ≤ text.length :=
  calc (words text).length ≤ (pieces isBlank text).flatten.length :=
        length_filter_le_flatten (pieces isBlank text)
    _ = (text.filter (!isBlank ·)).length := by rw [flatten_pieces]
    _ ≤ text.length := List.length_filter_le ..

/-- A word and the blank after it take two characters, and the last word needs no blank. -/
theorem two_mul_length_words_le (text : List Char) :
    2 * (words text).length ≤ text.length + 1 := by
  have hCharacters : (words text).length ≤ (pieces isBlank text).flatten.length :=
    length_filter_le_flatten (pieces isBlank text)
  have hPieces : (words text).length ≤ (pieces isBlank text).length := List.length_filter_le ..
  have hLength := length_pieces isBlank text
  omega

theorem words_append_blank {c : Char} (hBlank : isBlank c = true) (left right : List Char) :
    words (left ++ c :: right) = words left ++ words right := by
  rw [words, pieces_append_cut isBlank hBlank, List.filter_append]
  rfl

/-- A text has no words exactly if it is blank. -/
theorem words_eq_nil_iff {text : List Char} : words text = [] ↔ Blank text := by
  have hPieces : words text = [] ↔ (pieces isBlank text).flatten = [] := by
    simp [words, List.filter_eq_nil_iff, List.flatten_eq_nil_iff]
  rw [hPieces, flatten_pieces, List.filter_eq_nil_iff]
  simp [Blank]

/-- Trimming leaves nothing exactly if the text is blank. -/
theorem trim_eq_nil_iff {text : List Char} : trim text = [] ↔ Blank text := by
  unfold trim
  rw [List.reverse_eq_nil_iff, List.dropWhile_eq_nil_iff]
  constructor
  · intro h c hc
    rw [← List.takeWhile_append_dropWhile (p := isBlank) (l := text)] at hc
    rcases List.mem_append.mp hc with hc | hc
    · exact List.mem_takeWhile_imp hc
    · exact h c (List.mem_reverse.mpr hc)
  · intro h c hc
    exact h c ((List.dropWhile_sublist isBlank).subset (List.mem_reverse.mp hc))

theorem words_append_of_blank {gap : List Char} (hGap : Blank gap) (text : List Char) :
    words (gap ++ text) = words text := by
  induction gap with
  | nil => rfl
  | cons c gap ih =>
    obtain ⟨hHead, hTail⟩ := List.forall_mem_cons.mp hGap
    have hSplit := words_append_blank hHead [] (gap ++ text)
    rw [List.nil_append] at hSplit
    rw [List.cons_append, hSplit, ih hTail]
    rfl

theorem words_of_isWord {word : List Char} (h : IsWord word) : words word = [word] := by
  rw [words, pieces_of_not isBlank h.2]
  simp [h.1]

/-- A word ends where a blank follows it. -/
theorem words_append_of_isWord {word rest : List Char} (h : IsWord word)
    (hApart : ∀ c ∈ rest.head?, isBlank c = true) : words (word ++ rest) = word :: words rest := by
  cases rest with
  | nil => rw [List.append_nil, words_of_isWord h]; rfl
  | cons c rest =>
    have hBlank : isBlank c = true := hApart c rfl
    have hFirst := words_append_blank hBlank word rest
    have hSecond := words_append_blank hBlank [] rest
    rw [List.nil_append] at hSecond
    rw [hFirst, hSecond, words_of_isWord h]
    rfl

/-- **Words set apart by blanks** are found again. -/
theorem words_of_spaced {ws : List (List Char)} {text : List Char} (h : Spaced ws text)
    (hWords : ∀ w ∈ ws, IsWord w) : words text = ws := by
  induction h with
  | nil hGap => exact words_eq_nil_iff.mpr hGap
  | cons hGap hRest hApart ih =>
    obtain ⟨hFirst, hOthers⟩ := List.forall_mem_cons.mp hWords
    rw [List.append_assoc, words_append_of_blank hGap, words_append_of_isWord hFirst hApart,
      ih hOthers]

/-- Every text consists of its own words, set apart by blanks. -/
theorem spaced_words (text : List Char) : Spaced (words text) text := by
  -- one word less each time
  induction hLength : text.length using Nat.strongRecOn generalizing text with
  | ind n ih =>
    have hGap : Blank (text.takeWhile isBlank) := fun _ => List.mem_takeWhile_imp
    have hText : text.takeWhile isBlank ++ text.dropWhile isBlank = text :=
      List.takeWhile_append_dropWhile
    have hStart := List.head?_dropWhile_not isBlank text
    revert hGap hText hStart
    generalize text.takeWhile isBlank = gap
    cases text.dropWhile isBlank with
    | nil =>
      rintro hGap rfl -
      rw [List.append_nil, words_eq_nil_iff.mpr hGap]
      exact .nil hGap
    | cons c body =>
      rintro hGap rfl hStart
      have hFirst : isBlank c = false := by simpa using hStart
      -- the first word goes up to the next blank
      have hWord : IsWord (c :: body.takeWhile (!isBlank ·)) := by
        refine ⟨List.cons_ne_nil _ _, List.forall_mem_cons.mpr ⟨hFirst, fun d hd => ?_⟩⟩
        simpa using List.mem_takeWhile_imp hd
      have hBody : c :: body = c :: body.takeWhile (!isBlank ·) ++ body.dropWhile (!isBlank ·) := by
        simp
      have hEnd := List.head?_dropWhile_not (!isBlank ·) body
      have hShorter : (body.dropWhile (!isBlank ·)).length ≤ body.length :=
        (List.dropWhile_sublist _).length_le
      have hApart : ∀ d ∈ (body.dropWhile (!isBlank ·)).head?, isBlank d = true := by
        intro d hd
        rw [Option.mem_def] at hd
        simpa [hd] using hEnd
      -- what is left is shorter, and consists of the other words
      have hRest := ih _ (by simp at hLength; omega) (body.dropWhile (!isBlank ·)) rfl
      rw [hBody, words_append_of_blank hGap, words_append_of_isWord hWord hApart,
        ← List.append_assoc]
      exact .cons hGap hRest hApart

-- ---------------------------------------------------------------------------
-- Lines
-- ---------------------------------------------------------------------------

theorem isBlank_newline : isBlank '\n' = true := by decide

theorem isBlank_return : isBlank '\r' = true := by decide

/-- The carriage return that a line gives up is in none of its words. -/
theorem words_dropReturn (line : List Char) : words (dropReturn line) = words line := by
  unfold dropReturn
  split
  · next hLast =>
    obtain ⟨front, rfl⟩ := List.getLast?_eq_some_iff.mp hLast
    have hSplit := words_append_blank isBlank_return front []
    rw [List.dropLast_concat, hSplit]
    simp [words, pieces]
  · rfl

theorem not_cut_of_not_mem {text : List Char} (h : '\n' ∉ text) :
    ∀ c ∈ text, (c == '\n') = false := by
  intro c hc
  rw [beq_eq_false_iff_ne]
  rintro rfl
  exact h hc

/-- The first newline ends the first line. -/
theorem lines_append_newline {first : List Char} (hFirst : '\n' ∉ first) (rest : List Char) :
    lines (first ++ '\n' :: rest) = dropReturn first :: lines rest := by
  obtain ⟨piece, more, hRest⟩ := List.exists_cons_of_ne_nil (pieces_ne_nil (· == '\n') rest)
  have hPieces : pieces (· == '\n') (first ++ '\n' :: rest) = first :: piece :: more := by
    have hCut := pieces_append_cut (fun c => c == '\n') (beq_self_eq_true '\n') first rest
    rw [hCut, pieces_of_not _ (not_cut_of_not_mem hFirst), hRest]
    rfl
  simp [lines, hPieces, hRest]

/-- Without a newline there is one line at most. -/
theorem lines_of_not_mem {text : List Char} (h : '\n' ∉ text) :
    lines text = if text.isEmpty then [] else [text] := by
  simp [lines, pieces_of_not _ (not_cut_of_not_mem h)]

/-- The words of a text are those of its lines. -/
theorem flatMap_words_lines (text : List Char) : (lines text).flatMap words = words text := by
  -- one line less each time, so the induction is on the length of what is left
  induction hLength : text.length using Nat.strongRecOn generalizing text with
  | ind n ih =>
    by_cases hMem : '\n' ∈ text
    · obtain ⟨first, rest, rfl, hFirst⟩ := List.eq_append_cons_of_mem hMem
      have hShorter : rest.length < n := by
        simp at hLength
        omega
      rw [lines_append_newline hFirst, List.flatMap_cons, ih _ hShorter rest rfl,
        words_dropReturn, words_append_blank isBlank_newline]
    · rw [lines_of_not_mem hMem]
      cases text with
      | nil => rfl
      | cons c text => simp

/-- The newline in front of the later lines leaves room for a blank after each of their words. -/
theorem two_mul_length_later_words_le (text : List Char) :
    2 * ((lines text).tail.flatMap words).length ≤ text.length := by
  by_cases hMem : '\n' ∈ text
  · obtain ⟨first, rest, rfl, hFirst⟩ := List.eq_append_cons_of_mem hMem
    have hRest := two_mul_length_words_le rest
    rw [lines_append_newline hFirst, List.tail_cons, flatMap_words_lines]
    simp
    omega
  · rw [lines_of_not_mem hMem]
    split <;> simp

/-- The words of every line that is not blank. -/
def table (lines : List (List Char)) : List (List (List Char)) :=
  (lines.filter fun line => ¬ Blank line).map words

theorem table_cons (line : List Char) (lines : List (List Char)) :
    table (line :: lines) = if Blank line then table lines else words line :: table lines := by
  unfold table
  by_cases hBlank : Blank line <;> simp [hBlank]

/-- Blank lines have no words, so leaving them out loses none. -/
theorem flatten_table (lines : List (List Char)) : (table lines).flatten = lines.flatMap words := by
  induction lines with
  | nil => rfl
  | cons line lines ih =>
    rw [table_cons, List.flatMap_cons, ← ih]
    by_cases hBlank : Blank line
    · have hNone : words line = [] := words_eq_nil_iff.mpr hBlank
      simp [hBlank, hNone]
    · simp [hBlank]

theorem ne_nil_of_mem_table {lines : List (List Char)} {row : List (List Char)}
    (h : row ∈ table lines) : row ≠ [] := by
  obtain ⟨line, hLine, rfl⟩ := List.mem_map.mp h
  intro hNone
  have hBlank : Blank line := words_eq_nil_iff.mp hNone
  simpa [hBlank] using (List.mem_filter.mp hLine).2

theorem table_dropReturn_cons (line : List Char) (lines : List (List Char)) :
    table (dropReturn line :: lines) = table (line :: lines) := by
  have hSame : Blank (dropReturn line) ↔ Blank line := by
    rw [← words_eq_nil_iff, ← words_eq_nil_iff, words_dropReturn]
  simp only [table_cons, hSame, words_dropReturn]

/-- The lines that are joined by newlines are found again, but for what is blank in them. -/
theorem table_lines_intercalate {ls : List (List Char)} (h : ∀ line ∈ ls, '\n' ∉ line) :
    table (lines (['\n'].intercalate ls)) = table ls := by
  induction ls with
  | nil => rfl
  | cons line ls ih =>
    obtain ⟨hLine, hRest⟩ := List.forall_mem_cons.mp h
    cases ls with
    | nil =>
      rw [List.intercalate_singleton, lines_of_not_mem hLine]
      cases line with
      | nil => rfl
      | cons c line => rfl
    | cons next ls =>
      rw [List.intercalate_cons_cons, List.append_assoc, List.singleton_append,
        lines_append_newline hLine, table_dropReturn_cons, table_cons, table_cons, ih hRest]

/-- The lines after the first. -/
theorem table_tail_lines_intercalate {first : List Char} {ls : List (List Char)}
    (h : ∀ line ∈ first :: ls, '\n' ∉ line) :
    table (lines (['\n'].intercalate (first :: ls))).tail = table ls := by
  obtain ⟨hFirst, hRest⟩ := List.forall_mem_cons.mp h
  cases ls with
  | nil =>
    rw [List.intercalate_singleton, lines_of_not_mem hFirst]
    split <;> rfl
  | cons next ls =>
    rw [List.intercalate_cons_cons, List.append_assoc, List.singleton_append,
      lines_append_newline hFirst, List.tail_cons, table_lines_intercalate hRest]

-- ---------------------------------------------------------------------------
-- Numerals
-- ---------------------------------------------------------------------------

/-- The decimal numeral of a number, with a minus sign if it is negative. -/
def decimal (x : Int) : List Char := (toString x).toList

theorem decimal_ofNat (n : Nat) : decimal (.ofNat n) = Nat.toDigits 10 n := by
  show (Nat.repr n).toList = _
  simp

theorem decimal_negSucc (n : Nat) : decimal (.negSucc n) = '-' :: Nat.toDigits 10 (n + 1) := by
  show ("-" ++ Nat.repr (n + 1)).toList = _
  simp

theorem isDigit_of_mem_toDigits {n : Nat} {c : Char} (h : c ∈ Nat.toDigits 10 n) :
    c.isDigit = true :=
  Nat.isDigit_of_mem_toDigits (by decide) (by decide) h

/-- A digit lies between zero and nine. -/
theorem toNat_of_isDigit {c : Char} (h : c.isDigit = true) : 48 ≤ c.toNat ∧ c.toNat ≤ 57 := by
  simp only [Char.isDigit, Bool.and_eq_true, decide_eq_true_eq, ge_iff_le, UInt32.le_iff_toNat_le]
    at h
  exact h

theorem digit?_of_isDigit {c : Char} (h : c.isDigit = true) :
    digit? c = some (c.toNat - '0'.toNat) := by
  have hRange : '0' ≤ c ∧ c ≤ '9' := toNat_of_isDigit h
  exact if_pos hRange

/-- Digits are read as the number they spell. -/
theorem digitsFrom_eq {cs : List Char} (h : ∀ c ∈ cs, c.isDigit = true) (value : Nat) :
    digitsFrom value cs = some (Nat.ofDigitChars 10 cs value) := by
  induction cs generalizing value with
  | nil => rfl
  | cons c cs ih =>
    obtain ⟨hHead, hTail⟩ := List.forall_mem_cons.mp h
    rw [digitsFrom, digit?_of_isDigit hHead]
    exact ih hTail _

theorem natural?_toDigits (n : Nat) : natural? (Nat.toDigits 10 n) = some n := by
  have hDigits : digitsFrom 0 (Nat.toDigits 10 n) = some n := by
    rw [digitsFrom_eq (fun _ => isDigit_of_mem_toDigits), Nat.ofDigitChars_ten_toDigits]
  obtain ⟨c, cs, hCons⟩ := List.exists_cons_of_ne_nil (Nat.toDigits_ne_nil (n := n) (b := 10))
  rw [hCons] at hDigits ⊢
  exact hDigits

/-- A numeral begins with a digit, not with a sign. -/
theorem exists_toDigits_eq (n : Nat) :
    ∃ c cs, Nat.toDigits 10 n = c :: cs ∧ c ≠ '+' ∧ c ≠ '-' := by
  obtain ⟨c, cs, hCons⟩ := List.exists_cons_of_ne_nil (Nat.toDigits_ne_nil (n := n) (b := 10))
  have hDigit : c.isDigit = true := isDigit_of_mem_toDigits (n := n) (by simp [hCons])
  refine ⟨c, cs, hCons, ?_, ?_⟩
  · rintro rfl
    exact absurd hDigit (by decide)
  · rintro rfl
    exact absurd hDigit (by decide)

/-- **A printed size** is read back. -/
theorem unsigned?_decimal {n : Nat} (h : n < Word.size) : unsigned? (decimal n) = some n := by
  have hNatural := natural?_toDigits n
  obtain ⟨c, cs, hCons, hPlus, -⟩ := exists_toDigits_eq n
  rw [← Int.ofNat_eq_natCast, decimal_ofNat]
  rw [hCons] at hNatural ⊢
  unfold unsigned?
  split
  · next heq => exact absurd (List.cons.inj heq).1 hPlus
  · rw [hNatural]
    exact if_pos h

theorem signed?_of_digits {n : Nat} {c : Char} {cs : List Char}
    (hNatural : natural? (c :: cs) = some n) (hPlus : c ≠ '+') (hMinus : c ≠ '-')
    (h : Signed.Fits (n : Int)) : signed? (c :: cs) = some (n : Int) := by
  unfold signed?
  split
  · next heq => exact absurd (List.cons.inj heq).1 hPlus
  · next heq => exact absurd (List.cons.inj heq).1 hMinus
  · rw [hNatural, Option.map_some, Option.bind_eq_bind, Option.bind_some]
    exact if_pos h

theorem signed?_of_minus {n : Nat} {cs : List Char} (hNatural : natural? cs = some n)
    (h : Signed.Fits (-(n : Int))) : signed? ('-' :: cs) = some (-(n : Int)) := by
  simp only [signed?, hNatural, Option.bind_eq_bind, Option.bind_some, Option.pure_def,
    Option.map_some]
  exact if_pos h

/-- **A printed entry** is read back. -/
theorem signed?_decimal {x : Int} (h : Signed.Fits x) : signed? (decimal x) = some x := by
  cases x with
  | ofNat n =>
    have hNatural := natural?_toDigits n
    obtain ⟨c, cs, hCons, hPlus, hMinus⟩ := exists_toDigits_eq n
    rw [decimal_ofNat]
    rw [Int.ofNat_eq_natCast] at h ⊢
    rw [hCons] at hNatural ⊢
    exact signed?_of_digits hNatural hPlus hMinus h
  | negSucc n =>
    have hValue : Int.negSucc n = -((n + 1 : Nat) : Int) := Int.negSucc_eq n
    rw [decimal_negSucc]
    rw [hValue] at h ⊢
    exact signed?_of_minus (natural?_toDigits (n + 1)) h

theorem isBlank_of_isDigit {c : Char} (h : c.isDigit = true) : isBlank c = false := by
  have hRange := toNat_of_isDigit h
  simp [isBlank]
  omega

/-- A printed number is a word. -/
theorem isWord_decimal (x : Int) : IsWord (decimal x) := by
  have hDigits : ∀ n, ∀ c ∈ Nat.toDigits 10 n, isBlank c = false :=
    fun _ _ hc => isBlank_of_isDigit (isDigit_of_mem_toDigits hc)
  cases x with
  | ofNat n =>
    rw [decimal_ofNat]
    exact ⟨Nat.toDigits_ne_nil, hDigits n⟩
  | negSucc n =>
    rw [decimal_negSucc]
    exact ⟨List.cons_ne_nil _ _, List.forall_mem_cons.mpr ⟨by decide, hDigits (n + 1)⟩⟩

end SwapSearch.Text
