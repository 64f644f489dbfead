import SwapSearch.Proofs.Scalar.Exact
import SwapSearch.Proofs.GainTable

/-!
# SwapSearch — the best move

A scan over all moves keeps the best one so far. It passes over every move that is no
better than the one it keeps, and looks only at the others more closely: they have to
pass a test. A move that was passed over untested is no loss, because what stands in its
way is at least as good and has passed.

So the scan finds the first of the best moves that pass, and it comes back empty only if
none passes. Moves are scanned in row-major order, so *first* means the smallest first
position, and among those the smallest second one.

## Results

* `Leads.exists_keepBest`   — what one more move does to the lead.
* `foldl_keepBest`          — what a scan finds.
* `bestPair_of_leads`       — the same, said of positions.
* `gain_le_of_bestMove`     — no gain exceeds that of the move of steepest ascent.
* `gain_nonpos_of_bestMove` — where that move gains nothing, no move does.
-/

namespace SwapSearch

namespace GainTable

variable {α : Type} [ExactScalar α] {test : Move α → Bool}

/-- What is known of the move that a scan has kept. -/
structure Leads (test : Move α → Bool) (moves : List (Move α)) (m : Move α) : Prop where
  passes : test m = true
  splits : ∃ before after, moves = before ++ m :: after ∧
    (∀ k ∈ before, test k = true → k.gain < m.gain) ∧ ∀ k ∈ after, test k = true → k.gain ≤ m.gain

/-- The first move that passes leads. -/
theorem leads_of_forall_fail {moves : List (Move α)} {last : Move α}
    (hFailed : ∀ k ∈ moves, test k = false) (hTest : test last = true) :
    Leads test (moves ++ [last]) last := by
  refine ⟨hTest, moves, [], rfl, fun k hk hPasses => ?_, by simp⟩
  exact nomatch (hFailed k hk).symm.trans hPasses

/-- One more move takes the lead if it passes and is better, and leaves it otherwise. -/
theorem Leads.exists_keepBest {moves : List (Move α)} {kept : Move α}
    (h : Leads test moves kept) (last : Move α) :
    ∃ m, keepBest test (some kept) last = some m ∧ Leads test (moves ++ [last]) m := by
  obtain ⟨hPasses, before, after, rfl, hBefore, hAfter⟩ := h
  by_cases hTaken : ¬ last.gain ≤ kept.gain ∧ test last = true
  · -- the last move is better than what was kept, and so than all that passed before
    obtain ⟨hBetter, hTest⟩ := hTaken
    have hLess : kept.gain < last.gain := not_le.mp hBetter
    refine ⟨last, by simp [keepBest, hBetter, hTest], hTest, before ++ kept :: after, [], rfl, ?_,
      by simp⟩
    intro k hk hPassed
    rcases List.mem_append.mp hk with hk | hk
    · exact (hBefore k hk hPassed).trans hLess
    · rcases List.mem_cons.mp hk with rfl | hk
      · exact hLess
      · exact (hAfter k hk hPassed).trans_lt hLess
  · -- a move that fails the test, or is no better, goes behind what was kept
    have hLe : test last = true → last.gain ≤ kept.gain := by
      intro hTest
      by_contra hBetter
      exact hTaken ⟨hBetter, hTest⟩
    refine ⟨kept, ?_, hPasses, before, after ++ [last], by simp, hBefore, fun k hk hPassed => ?_⟩
    · cases hTest : test last with
      | true => simp [keepBest, hLe hTest]
      | false => simp [keepBest, hTest]
    · rcases List.mem_append.mp hk with hk | hk
      · exact hAfter k hk hPassed
      · obtain rfl := List.mem_singleton.mp hk
        exact hLe hPassed

/-- **What a scan finds.** The first of the best moves that pass the test, if any passes. -/
theorem foldl_keepBest (moves : List (Move α)) :
    (moves.foldl (keepBest test) none = none → ∀ k ∈ moves, test k = false) ∧
    ∀ m, moves.foldl (keepBest test) none = some m → Leads test moves m := by
  -- from the right, as the fold meets the last move with all others behind it
  induction moves using List.reverseRecOn with
  | nil => exact ⟨by simp, by simp⟩
  | append_singleton moves last ih =>
    obtain ⟨hNone, hSome⟩ := ih
    rw [List.foldl_append, List.foldl_cons, List.foldl_nil]
    cases hKept : moves.foldl (keepBest test) none with
    | none =>
      -- nothing passed so far, so the last move leads exactly if it passes
      have hFailed := hNone hKept
      cases hTest : test last with
      | false =>
        refine ⟨fun _ k hk => ?_, by simp [keepBest, hTest]⟩
        rcases List.mem_append.mp hk with hk | hk
        · exact hFailed k hk
        · rw [List.mem_singleton.mp hk, hTest]
      | true =>
        refine ⟨by simp [keepBest, hTest], fun m hm => ?_⟩
        obtain rfl : last = m := by simpa [keepBest, hTest] using hm
        exact leads_of_forall_fail hFailed hTest
    | some kept =>
      obtain ⟨m, hStep, hLeads⟩ := (hSome kept hKept).exists_keepBest last
      rw [hStep]
      refine ⟨by simp, fun m' hm => ?_⟩
      obtain rfl := Option.some.inj hm
      exact hLeads

-- ---------------------------------------------------------------------------
-- Positions
-- ---------------------------------------------------------------------------

/-- Among the pairs that pass, `(i, j)` has the largest gain, and no other pair with that gain comes
earlier in row-major order. -/
structure BestPair (t : GainTable α) (Passes : Nat → Nat → Prop) (i j : Nat) : Prop where
  lt : i < j
  lt_size : j < t.size
  passes : Passes i j
  largest : ∀ k l, k < l → l < t.size → Passes k l → t.gain k l ≤ t.gain i j
  first : ∀ k l, k < l → l < t.size → Passes k l → t.gain k l = t.gain i j →
    i < k ∨ i = k ∧ j ≤ l

/-- What leads a scan is the best pair. -/
theorem bestPair_of_leads {t : GainTable α} {m : Move α} (h : Leads test t.moves m) :
    BestPair t (fun i j => test ⟨i, j, t.gain i j⟩ = true) m.first m.second := by
  obtain ⟨hPasses, before, after, hSplit, hBefore, hAfter⟩ := h
  have hMem : m ∈ t.moves := by simp [hSplit]
  obtain ⟨hij, hj, hGain⟩ := mem_moves.mp hMem
  -- where another move stands, before or after the leading one
  have hOther : ∀ k l, k < l → l < t.size → (⟨k, l, t.gain k l⟩ : Move α) ∈ before ∨
      (⟨k, l, t.gain k l⟩ : Move α) = m ∨ (⟨k, l, t.gain k l⟩ : Move α) ∈ after := by
    intro k l hkl hl
    have hMove : (⟨k, l, t.gain k l⟩ : Move α) ∈ t.moves := mem_moves.mpr ⟨hkl, hl, rfl⟩
    simpa [hSplit] using hMove
  -- the moves are listed in row-major order, so what stands behind comes later
  have hOrder : ∀ k ∈ after, m.first < k.first ∨ m.first = k.first ∧ m.second < k.second := by
    have hPairs := pairwise_swapPairs t.size
    have hMoves : t.moves.Pairwise fun p q =>
        p.first < q.first ∨ p.first = q.first ∧ p.second < q.second :=
      List.pairwise_map.mpr hPairs
    rw [hSplit] at hMoves
    exact (List.pairwise_cons.mp (List.pairwise_append.mp hMoves).2.1).1
  refine ⟨hij, hj, ?_, fun k l hkl hl hPassed => ?_, fun k l hkl hl hPassed hSame => ?_⟩
  · rw [← hGain]
    exact hPasses
  · rw [← hGain]
    rcases hOther k l hkl hl with hk | hk | hk
    · exact (hBefore _ hk hPassed).le
    · exact (congrArg Move.gain hk).le
    · exact hAfter _ hk hPassed
  · rw [← hGain] at hSame
    rcases hOther k l hkl hl with hk | hk | hk
    · exact absurd hSame (hBefore _ hk hPassed).ne
    · have hFirst : k = m.first := congrArg Move.first hk
      have hSecond : l = m.second := congrArg Move.second hk
      omega
    · have := hOrder _ hk
      dsimp only at this
      omega

/-- No gain exceeds that of the move of steepest ascent. -/
theorem gain_le_of_bestMove {t : GainTable α} {m : Move α} (h : t.bestMove = some m) {i j : Nat}
    (hij : i < j) (hj : j < t.size) : t.gain i j ≤ m.gain := by
  obtain ⟨-, -, hGain⟩ := mem_moves.mp (mem_moves_of_bestMove h)
  rw [bestMove_eq] at h
  rw [hGain]
  exact (bestPair_of_leads ((foldl_keepBest t.moves).2 m h)).largest i j hij hj rfl

/-- Where the move of steepest ascent gains nothing, no move does. -/
theorem gain_nonpos_of_bestMove {t : GainTable α} (h : t.bestMove.filter (0 < ·.gain) = none)
    {i j : Nat} (hij : i < j) (hj : j < t.size) : t.gain i j ≤ 0 := by
  cases hBest : t.bestMove with
  | none =>
    have hMove : (⟨i, j, t.gain i j⟩ : Move α) ∈ t.moves := mem_moves.mpr ⟨hij, hj, rfl⟩
    rw [bestMove_eq] at hBest
    exact nomatch (foldl_keepBest t.moves).1 hBest _ hMove
  | some m =>
    have hNot : ¬ 0 < m.gain := by simpa [hBest] using h
    exact (gain_le_of_bestMove hBest hij hj).trans (not_lt.mp hNot)

end GainTable

end SwapSearch
