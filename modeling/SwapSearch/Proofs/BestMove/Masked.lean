import Mathlib.Data.List.DropRight
import SwapSearch.Proofs.GainTable
import SwapSearch.Proofs.Scalar.Rounding

/-!
# SwapSearch — gains that are not numbers

The scan for the move of steepest ascent passes over a move whose gain is at most that of
the move it keeps. What is not a number is at most nothing, and nothing is at most it. So
the scan takes a move with such a gain, and gives it up for whichever move comes next. What
it had kept before is forgotten: a gain that is not a number *masks* itself and all that
comes before it.

Where no gain masks another, the scan finds the first of the largest gains. In general it
finds the first of the largest gains that are not masked, and so it finds the first of all
those that are numbers exactly if that one is not masked.

## Results

* `exists_foldl_better` — what a scan has kept: the best since the last gain that is not a number.
* `mem_recent_iff`      — what came since then is what is not masked.
* `bestMove_unmasked`   — the move of steepest ascent, whatever the gains are.
-/

namespace SwapSearch

namespace GainTable

open OrderedScalar

variable {α : Type} [Scalar α]

-- ---------------------------------------------------------------------------
-- Scanning
-- ---------------------------------------------------------------------------

/-- The moves after the last one whose gain is not a number. -/
def recent (moves : List (Move α)) : List (Move α) :=
  moves.rtakeWhile fun m => !Scalar.isNaN m.gain

theorem recent_concat_number (moves : List (Move α)) {last : Move α}
    (h : Scalar.isNaN last.gain = false) : recent (moves ++ [last]) = recent moves ++ [last] := by
  unfold recent
  rw [List.rtakeWhile_concat_pos _ _ _ (by simp [h])]

theorem recent_concat_isNaN (moves : List (Move α)) {last : Move α}
    (h : Scalar.isNaN last.gain = true) : recent (moves ++ [last]) = [] := by
  unfold recent
  rw [List.rtakeWhile_concat_neg _ _ _ (by simp [h])]

theorem isNaN_of_mem_recent {moves : List (Move α)} {m : Move α} (h : m ∈ recent moves) :
    Scalar.isNaN m.gain = false := by simpa using List.mem_rtakeWhile_imp h

/-- What is known of the move that a scan has kept. What is not a number is kept until the next
move comes. -/
inductive Reached (moves : List (Move α)) (m : Move α) : Prop
  | leads (before after : List (Move α)) (split : recent moves = before ++ m :: after)
      (ahead : ∀ k ∈ before, k.gain < m.gain) (behind : ∀ k ∈ after, k.gain ≤ m.gain)
  | masks (before : List (Move α)) (split : moves = before ++ [m])
      (unordered : Scalar.isNaN m.gain = true)

section Scan

variable [OrderedScalar α] [FaithfulScalar α]

/-- A kept number stands against the next move, or gives way to it. -/
theorem exists_better_of_leads {moves before after : List (Move α)} {kept : Move α}
    (hSplit : recent moves = before ++ kept :: after) (hAhead : ∀ k ∈ before, k.gain < kept.gain)
    (hBehind : ∀ k ∈ after, k.gain ≤ kept.gain) (last : Move α) :
    ∃ m, better (some kept) last = some m ∧ Reached (moves ++ [last]) m := by
  have hMem : kept ∈ recent moves := by simp [hSplit]
  have hKept := isNaN_of_mem_recent hMem
  unfold better
  by_cases hLe : last.gain ≤ kept.gain
  · have hLast := (FaithfulScalar.isNaN_of_le hLe).1
    refine ⟨kept, if_pos hLe, .leads before (after ++ [last]) ?_ hAhead fun k hk => ?_⟩
    · rw [recent_concat_number _ hLast, hSplit, List.append_assoc, List.cons_append]
    · rcases List.mem_append.mp hk with hk | hk
      · exact hBehind k hk
      · exact List.mem_singleton.mp hk ▸ hLe
  · refine ⟨last, if_neg hLe, ?_⟩
    cases hLast : Scalar.isNaN last.gain with
    | true => exact .masks moves rfl hLast
    | false =>
      -- two numbers, so the new one is larger than the old one and than all that was behind it
      have hAbove : kept.gain < last.gain :=
        lt_iff_le_not_le.mpr ⟨(le_total hLast hKept).resolve_left hLe, hLe⟩
      have hMore : ∀ k : Move α, k.gain ≤ kept.gain → k.gain < last.gain := fun k hk =>
        lt_of_le_of_lt hk hAbove
      refine .leads (recent moves) [] (recent_concat_number _ hLast) (fun k hk => hMore k ?_)
        nofun
      rw [hSplit] at hk
      rcases List.mem_append.mp hk with hk | hk
      · exact le_of_lt (hAhead k hk)
      · rcases List.mem_cons.mp hk with rfl | hk
        · exact le_self hKept
        · exact hBehind k hk

omit [OrderedScalar α] in
/-- What is not a number gives way to whatever comes next. -/
theorem exists_better_of_masks {before : List (Move α)} {kept : Move α}
    (hKept : Scalar.isNaN kept.gain = true) (last : Move α) :
    better (some kept) last = some last ∧ Reached (before ++ [kept] ++ [last]) last := by
  have hNot : ¬ last.gain ≤ kept.gain := fun hLe =>
    nomatch hKept.symm.trans (FaithfulScalar.isNaN_of_le hLe).2
  refine ⟨if_neg hNot, ?_⟩
  cases hLast : Scalar.isNaN last.gain with
  | true => exact .masks _ rfl hLast
  | false =>
    refine .leads [] [] ?_ nofun nofun
    rw [recent_concat_number _ hLast, recent_concat_isNaN _ hKept, List.nil_append]

/-- **What a scan has kept.** The first of the best since the last gain that is not a number, or
that one if nothing has come since. -/
theorem exists_foldl_better {moves : List (Move α)} (h : moves ≠ []) :
    ∃ m, moves.foldl better none = some m ∧ Reached moves m := by
  induction moves using List.reverseRecOn with
  | nil => exact absurd rfl h
  | append_singleton moves last ih =>
    rw [List.foldl_append, List.foldl_cons, List.foldl_nil]
    -- the first move is kept whatever its gain is
    by_cases hEmpty : moves = []
    · subst hEmpty
      refine ⟨last, rfl, ?_⟩
      cases hLast : Scalar.isNaN last.gain with
      | true => exact .masks [] rfl hLast
      | false => exact .leads [] [] (recent_concat_number [] hLast) nofun nofun
    · obtain ⟨kept, hFold, hReached⟩ := ih hEmpty
      rw [hFold]
      cases hReached with
      | leads before after hSplit hAhead hBehind =>
        exact exists_better_of_leads hSplit hAhead hBehind last
      | masks before hSplit hKept =>
        subst hSplit
        exact ⟨last, exists_better_of_masks hKept last⟩

end Scan

-- ---------------------------------------------------------------------------
-- Positions
-- ---------------------------------------------------------------------------

/-- The pair `(p, q)` is `(i, j)` or comes after it in row-major order. -/
def NotBefore (i j p q : Nat) : Prop := i < p ∨ i = p ∧ j ≤ q

instance decidableNotBefore (i j p q : Nat) : Decidable (NotBefore i j p q) :=
  inferInstanceAs (Decidable (i < p ∨ i = p ∧ j ≤ q))

/-- The gain of `(i, j)`, or one that comes after it, is not a number. -/
def Masked (t : GainTable α) (i j : Nat) : Prop :=
  ∃ p q, p < q ∧ q < t.size ∧ Scalar.isNaN (t.gain p q) = true ∧ NotBefore i j p q

/-- Among the pairs that count, `(i, j)` has the largest gain, and none that comes before it has as
large a one. -/
structure SteepestPair (t : GainTable α) (Counts : Nat → Nat → Prop) (i j : Nat) : Prop where
  lt : i < j
  lt_size : j < t.size
  counts : Counts i j
  largest : ∀ k l, k < l → l < t.size → Counts k l → t.gain k l ≤ t.gain i j
  first : ∀ k l, k < l → l < t.size → Counts k l → t.gain i j ≤ t.gain k l → NotBefore i j k l

namespace SteepestPair

variable {t : GainTable α} {Counts Fewer : Nat → Nat → Prop} {i j k l : Nat}

/-- There is only one. -/
theorem unique (h : t.SteepestPair Counts i j) (h' : t.SteepestPair Counts k l) :
    i = k ∧ j = l := by
  have hThere := h.first k l h'.lt h'.lt_size h'.counts
    (h'.largest i j h.lt h.lt_size h.counts)
  have hBack := h'.first i j h.lt h.lt_size h.counts
    (h.largest k l h'.lt h'.lt_size h'.counts)
  unfold NotBefore at hThere hBack
  omega

/-- It stays so if fewer pairs count, as long as it does itself. -/
theorem among (h : t.SteepestPair Counts i j) (hFewer : ∀ k l, k < l → l < t.size →
    Fewer k l → Counts k l) (hCounts : Fewer i j) : t.SteepestPair Fewer i j where
  lt := h.lt
  lt_size := h.lt_size
  counts := hCounts
  largest := fun k l hkl hl hCount => h.largest k l hkl hl (hFewer k l hkl hl hCount)
  first := fun k l hkl hl hCount => h.first k l hkl hl (hFewer k l hkl hl hCount)

end SteepestPair

theorem pairwise_moves (t : GainTable α) :
    t.moves.Pairwise fun m k => m.first < k.first ∨ m.first = k.first ∧ m.second < k.second :=
  List.pairwise_map.mpr (pairwise_swapPairs t.size)

/-- A gain that is not a number is masked, by itself. -/
theorem isNaN_of_not_masked {t : GainTable α} {i j : Nat} (hij : i < j) (hj : j < t.size)
    (h : ¬ t.Masked i j) : Scalar.isNaN (t.gain i j) = false := by
  cases hGain : Scalar.isNaN (t.gain i j) with
  | false => rfl
  | true => exact absurd ⟨i, j, hij, hj, hGain, Or.inr ⟨rfl, le_rfl⟩⟩ h

/-- What comes after the last gain that is not a number is what is not masked. -/
theorem mem_recent_iff {t : GainTable α} {m : Move α} (hMove : m ∈ t.moves) :
    m ∈ recent t.moves ↔ ¬ t.Masked m.first m.second := by
  have hSplit : t.moves.rdropWhile (fun k => !Scalar.isNaN k.gain) ++ recent t.moves = t.moves :=
    List.rdropWhile_append_rtakeWhile
  have hOrder := t.pairwise_moves
  rw [← hSplit, List.pairwise_append] at hOrder
  obtain ⟨hEarlier, -, hAcross⟩ := hOrder
  constructor
  · rintro hMem ⟨p, q, hpq, hq, hGain, hAfter⟩
    -- the masking gain is not among the recent ones, so it comes before all of them
    have hMasking : (⟨p, q, t.gain p q⟩ : Move α) ∈ t.moves := mem_moves.mpr ⟨hpq, hq, rfl⟩
    rw [← hSplit] at hMasking
    rcases List.mem_append.mp hMasking with hOld | hRecent
    · have := hAcross _ hOld m hMem
      unfold NotBefore at hAfter
      dsimp only at this
      omega
    · exact nomatch hGain.symm.trans (isNaN_of_mem_recent hRecent)
  · intro hNot
    rw [← hSplit] at hMove
    refine (List.mem_append.mp hMove).resolve_left fun hOld => hNot ?_
    -- the last of the older moves is not a number
    obtain ⟨older, last, hLast⟩ := List.eq_nil_or_concat _ |>.resolve_left
      (List.ne_nil_of_mem hOld)
    have hNaN : Scalar.isNaN last.gain = true := by
      have hFails := List.rdropWhile_last_not (fun k : Move α => !Scalar.isNaN k.gain) t.moves
        (List.ne_nil_of_mem hOld)
      simpa [hLast] using hFails
    have hThere : last ∈ t.moves := by
      rw [← hSplit, hLast]
      simp
    obtain ⟨hpq, hq, hGain⟩ := mem_moves.mp hThere
    refine ⟨last.first, last.second, hpq, hq, hGain ▸ hNaN, ?_⟩
    rw [hLast, List.concat_eq_append] at hOld hEarlier
    unfold NotBefore
    rcases List.mem_append.mp hOld with hBefore | hSelf
    · have := (List.pairwise_append.mp hEarlier).2.2 m hBefore last (List.mem_singleton_self _)
      omega
    · obtain rfl := List.mem_singleton.mp hSelf
      omega

/-- What leads a scan is the steepest of the pairs that are not masked. -/
theorem steepestPair_of_leads [OrderedScalar α] {t : GainTable α} {m : Move α}
    {before after : List (Move α)} (hSplit : recent t.moves = before ++ m :: after)
    (hAhead : ∀ k ∈ before, k.gain < m.gain) (hBehind : ∀ k ∈ after, k.gain ≤ m.gain) :
    t.SteepestPair (fun i j => ¬ t.Masked i j) m.first m.second := by
  have hSuffix : recent t.moves <:+ t.moves := List.rtakeWhile_suffix _ _
  have hRecent : m ∈ recent t.moves := by simp [hSplit]
  have hMove : m ∈ t.moves := hSuffix.subset hRecent
  obtain ⟨hij, hj, hGain⟩ := mem_moves.mp hMove
  -- the recent moves keep the row-major order of the table
  have hOrder := t.pairwise_moves.sublist hSuffix.sublist
  rw [hSplit, List.pairwise_append, List.pairwise_cons] at hOrder
  -- where another move stands, before or after the leading one
  have hOther : ∀ k l, k < l → l < t.size → ¬ t.Masked k l →
      (⟨k, l, t.gain k l⟩ : Move α) ∈ before ∨ (⟨k, l, t.gain k l⟩ : Move α) = m ∨
      (⟨k, l, t.gain k l⟩ : Move α) ∈ after := by
    intro k l hkl hl hNot
    have hMember : (⟨k, l, t.gain k l⟩ : Move α) ∈ t.moves := mem_moves.mpr ⟨hkl, hl, rfl⟩
    have hThere := (mem_recent_iff hMember).mpr hNot
    simpa [hSplit] using hThere
  refine ⟨hij, hj, (mem_recent_iff hMove).mp hRecent, fun k l hkl hl hNot => ?_,
    fun k l hkl hl hNot hAbove => ?_⟩
  · rw [← hGain]
    rcases hOther k l hkl hl hNot with hk | hk | hk
    · exact le_of_lt (hAhead _ hk)
    · rw [show t.gain k l = m.gain from congrArg Move.gain hk]
      exact le_self (isNaN_of_mem_recent hRecent)
    · exact hBehind _ hk
  · rw [← hGain] at hAbove
    unfold NotBefore
    rcases hOther k l hkl hl hNot with hk | hk | hk
    · exact absurd hAbove (not_le_of_lt (hAhead _ hk))
    · have hFirst : k = m.first := congrArg Move.first hk
      have hSecond : l = m.second := congrArg Move.second hk
      omega
    · have := hOrder.2.1.1 _ hk
      dsimp only at this
      omega

/-- A table of two positions or more has moves, and the last pair is the last of them. -/
theorem last_of_moves_eq {t : GainTable α} (hSize : 2 ≤ t.size) {before : List (Move α)}
    {m : Move α} (hSplit : t.moves = before ++ [m]) :
    m.first + 2 = t.size ∧ m.second + 1 = t.size := by
  have hMove : m ∈ t.moves := by simp [hSplit]
  obtain ⟨hij, hj, -⟩ := mem_moves.mp hMove
  -- the pair of the two last positions is a move, and none comes after it
  have hLast : (⟨t.size - 2, t.size - 1, t.gain (t.size - 2) (t.size - 1)⟩ : Move α) ∈ t.moves :=
    mem_moves.mpr ⟨by dsimp only; omega, by dsimp only; omega, rfl⟩
  have hOrder := t.pairwise_moves
  rw [hSplit] at hLast hOrder
  rcases List.mem_append.mp hLast with hEarlier | hSelf
  · have := (List.pairwise_append.mp hOrder).2.2 _ hEarlier m (List.mem_singleton_self _)
    dsimp only at this
    omega
  · obtain rfl := List.mem_singleton.mp hSelf
    dsimp only
    omega

section Found

variable [OrderedScalar α] [FaithfulScalar α]

/-- The move of steepest ascent is the steepest that is not masked, or else the very last one. -/
theorem exists_bestMove {t : GainTable α} (hSize : 2 ≤ t.size) :
    ∃ i j, t.bestMove = some ⟨i, j, t.gain i j⟩ ∧
      (t.SteepestPair (fun k l => ¬ t.Masked k l) i j ∨
        Scalar.isNaN (t.gain i j) = true ∧ i + 2 = t.size ∧ j + 1 = t.size) := by
  have hSome : t.moves ≠ [] := List.ne_nil_of_mem (mem_moves (m := ⟨0, 1, t.gain 0 1⟩).mpr
    ⟨Nat.one_pos, hSize, rfl⟩)
  obtain ⟨m, hBest, hReached⟩ := exists_foldl_better hSome
  obtain ⟨-, -, hGain⟩ := mem_moves.mp (mem_moves_of_bestMove hBest)
  refine ⟨m.first, m.second, ?_, ?_⟩
  · rw [← hGain]
    exact hBest
  · cases hReached with
    | leads before after hSplit hAhead hBehind =>
      exact Or.inl (steepestPair_of_leads hSplit hAhead hBehind)
    | masks before hSplit hNaN =>
      exact Or.inr ⟨hGain ▸ hNaN, last_of_moves_eq hSize hSplit⟩

/-- **The move of steepest ascent, whatever the gains are.** It is the first of the largest gains
that are not masked; if all are, it is the last pair, whose gain is not a number. So the first of
the largest gains that are numbers is found exactly if no gain that is not a number comes after
it. -/
theorem bestMove_unmasked (t : GainTable α) (hSize : 2 ≤ t.size) :
    (∃ i j, t.bestMove = some ⟨i, j, t.gain i j⟩ ∧
      (t.SteepestPair (fun k l => ¬ t.Masked k l) i j ∨
        Scalar.isNaN (t.gain i j) = true ∧ i + 2 = t.size ∧ j + 1 = t.size)) ∧
    ∀ i j, t.SteepestPair (fun k l => Scalar.isNaN (t.gain k l) = false) i j →
      (t.bestMove = some ⟨i, j, t.gain i j⟩ ↔ ¬ t.Masked i j) := by
  refine ⟨exists_bestMove hSize, fun i j hSteepest => ?_⟩
  obtain ⟨k, l, hBest, hFound⟩ := exists_bestMove hSize
  rw [hBest]
  constructor
  · intro hSame
    obtain ⟨rfl, rfl, -⟩ := Move.mk.inj (Option.some.inj hSame)
    rcases hFound with hUnmasked | ⟨hNaN, -⟩
    · exact hUnmasked.counts
    · exact nomatch hNaN.symm.trans hSteepest.counts
  · intro hNot
    have hUnmasked := hSteepest.among (fun _ _ => isNaN_of_not_masked) hNot
    rcases hFound with hOther | ⟨hNaN, hLast⟩
    · obtain ⟨rfl, rfl⟩ := hOther.unique hUnmasked
      rfl
    · -- the last pair would mask everything
      refine absurd ⟨k, l, by omega, by omega, hNaN, ?_⟩ hNot
      have hij := hSteepest.lt
      have hj := hSteepest.lt_size
      unfold NotBefore
      omega

end Found

-- ---------------------------------------------------------------------------
-- A gain that is overlooked
-- ---------------------------------------------------------------------------

/-- Three positions, of which exchanging the first two gains five and the last two gains one. What
comes in between is not a number. -/
def blinded : GainTable Float := ⟨3, #[0, 5, 0 / 0, 0, 0, 1, 0, 0, 0], rfl⟩

theorem steepest_blinded :
    blinded.SteepestPair (fun k l => Scalar.isNaN (blinded.gain k l) = false) 0 1 := by
  have hAll : ∀ p ∈ swapPairs 3, Scalar.isNaN (blinded.gain p.1 p.2) = false →
      blinded.gain p.1 p.2 ≤ blinded.gain 0 1 ∧
        (blinded.gain 0 1 ≤ blinded.gain p.1 p.2 → NotBefore 0 1 p.1 p.2) := by decide +kernel
  refine ⟨by decide, by decide, by decide +kernel, fun k l hkl hl hNumber => ?_,
    fun k l hkl hl hNumber => ?_⟩
  · exact (hAll (k, l) (mem_swapPairs.mpr ⟨hkl, hl⟩) hNumber).1
  · exact (hAll (k, l) (mem_swapPairs.mpr ⟨hkl, hl⟩) hNumber).2

/-- The gain of five is found exactly if it is not masked, which it is. -/
theorem bestMove_unmasked_blinded : 2 ≤ blinded.size ∧
    (blinded.bestMove = some ⟨0, 1, blinded.gain 0 1⟩ ↔ ¬ blinded.Masked 0 1) ∧
    blinded.Masked 0 1 := by
  refine ⟨by decide, (bestMove_unmasked blinded (by decide)).2 0 1 steepest_blinded, ?_⟩
  exact ⟨0, 2, by decide, by decide, by decide +kernel, by decide⟩

/-- Some gain is a number, and yet the first of the largest that are is not what the scan finds. -/
theorem bestMove_overlooks : 2 ≤ blinded.size ∧ Scalar.isNaN (blinded.gain 0 1) = false ∧
    ¬ ∃ i j, blinded.bestMove = some ⟨i, j, blinded.gain i j⟩ ∧
      blinded.SteepestPair (fun k l => Scalar.isNaN (blinded.gain k l) = false) i j := by
  refine ⟨by decide, steepest_blinded.counts, ?_⟩
  rintro ⟨i, j, hBest, hSteepest⟩
  obtain ⟨rfl, rfl⟩ := hSteepest.unique steepest_blinded
  have hFound : blinded.bestMove.map (fun m => (m.first, m.second)) = some (1, 2) := by
    decide +kernel
  rw [hBest] at hFound
  exact nomatch hFound

end GainTable

end SwapSearch
