import Mathlib.Data.Finset.Card
import Mathlib.Data.Finset.Prod
import SwapSearch.Proofs.Population.Tournament
import SwapSearch.Proofs.Tabu.Ledger
import SwapSearch.Random.Generators

/-!
# SwapSearch — choices without bias

Two choices of a search leave an index out: a tournament excludes the winner of the one
before, and the second position of a random pair is not the first one. Both draw from a range
that is shorter by one and move the indices from the missing one on up by one. That the
result is an index says little about this, since a map that prefers an index would still
yield indices. So the draws are counted: an index of a tournament has one draw, and a pair of
positions has two, one with either position first.

## Results

* `drawsOf_eq`       — the two draws of a pair.
* `choices_unbiased` — tournaments and random pairs prefer nothing.
-/

namespace SwapSearch

-- ---------------------------------------------------------------------------
-- Pairs of positions
-- ---------------------------------------------------------------------------

namespace Tabu.Walk

variable {n a b i j : Nat}

/-- The draws among `n` positions that stand for a pair. -/
def drawsOf (n : Nat) (pair : Nat × Nat) : Finset (Nat × Nat) :=
  (Finset.range n ×ˢ Finset.range (n - 1)).filter fun draws => pairOfDraws draws.1 draws.2 = pair

/-- The second draw is the other position, or the one below it if the first position is passed. -/
theorem pairOfDraws_eq_iff (hLess : i < j) :
    pairOfDraws a b = (i, j) ↔ a = i ∧ b = j - 1 ∨ a = j ∧ b = i := by
  unfold pairOfDraws
  dsimp only
  rw [Prod.mk.injEq]
  split <;> omega

/-- **A pair has two draws**, one with either position first. -/
theorem drawsOf_eq (hLess : i < j) (hRange : j < n) : drawsOf n (i, j) = {(i, j - 1), (j, i)} := by
  ext ⟨a, b⟩
  rw [drawsOf, Finset.mem_filter, Finset.mem_product, Finset.mem_range, Finset.mem_range,
    pairOfDraws_eq_iff hLess, Finset.mem_insert, Finset.mem_singleton, Prod.mk.injEq,
    Prod.mk.injEq]
  dsimp only
  omega

theorem card_drawsOf (hLess : i < j) (hRange : j < n) : (drawsOf n (i, j)).card = 2 := by
  rw [drawsOf_eq hLess hRange]
  exact Finset.card_pair fun hSame => hLess.ne (congrArg Prod.fst hSame)

end Tabu.Walk

-- ---------------------------------------------------------------------------
-- All choices
-- ---------------------------------------------------------------------------

namespace Random

open Tournament Tabu

/-- **Choices without bias.** In a tournament that excludes one of two members or more, the draws
stand for the other indices, one for one, and the winner is one of the entrants that at least one
draw and as many as there are rounds have named: the earliest of the fittest of them, if all values
of fitness are numbers. So two parents are always two different indices. A random pair of two
positions or more stands in order, and every pair has exactly two draws. -/
theorem choices_unbiased {α ρ : Type} [Scalar α] [OrderedScalar α] [RandomSource ρ]
    {fitness : Array α} (hTwo : 2 ≤ fitness.size) (rounds : Nat) :
    (∀ e < fitness.size,
      Set.BijOn (contender (some e)) {draw | draw < fitness.size - 1}
        {i | i < fitness.size ∧ i ≠ e} ∧
      ∀ r : ρ, ∃ i drawn after,
        entrants (fitness.size - 1) (some e) (max rounds 1) r = (drawn, after) ∧
        winner fitness rounds (some e) r = .ok (i, after) ∧
        drawn.length = max rounds 1 ∧ i ∈ drawn ∧
        ((∀ x ∈ fitness, Scalar.isNaN x = false) → FirstBest fitness drawn i)) ∧
    (∀ r : ρ, ∃ i j after, parents fitness rounds r = .ok ((i, j), after) ∧
      i < fitness.size ∧ j < fitness.size ∧ i ≠ j) ∧
    ∀ n, 2 ≤ n →
      (∀ a b, a < n → b < n - 1 →
        (Walk.pairOfDraws a b).1 < (Walk.pairOfDraws a b).2 ∧ (Walk.pairOfDraws a b).2 < n) ∧
      (∀ i j, i < j → j < n → (Walk.drawsOf n (i, j)).card = 2) ∧
      ∀ {L μ : Type} (w : Walk L α μ ρ), w.size = n →
        ∃ a b between after, below n w.context.random = (a, between) ∧
          below (n - 1) between = (b, after) ∧ a < n ∧ b < n - 1 ∧
          w.drawPair.1 = Walk.pairOfDraws a b := by
  refine ⟨fun e he => ⟨bijOn_contender he, fun r => ?_⟩, parents_succeeds hTwo rounds,
    fun n hn => ⟨fun a b => Walk.pairOfDraws_lt, fun i j => Walk.card_drawsOf, fun w hSize => ?_⟩⟩
  · have hExcluded : ∀ e' ∈ some e, e' < fitness.size := fun e' hSame =>
      (Option.some.inj hSame) ▸ he
    have hPool : 0 < poolSize fitness.size (some e) := by
      rw [poolSize_some he]
      omega
    obtain ⟨i, hWinner, hEnters⟩ := winner_succeeds hPool rounds r
    have hBest := fun hNumbers => winner_firstBest hNumbers hExcluded hPool hWinner
    rw [poolSize_some he] at hWinner hEnters hBest
    exact ⟨i, _, _, rfl, hWinner, length_entrants .., hEnters, hBest⟩
  · subst hSize
    exact ⟨_, _, _, _, rfl, rfl, below_lt (by omega) _, below_lt (by omega) _, rfl⟩

/-- The second and the third entrant are equally fit, and fitter than the first. The fittest of all
is excluded. -/
theorem choices_unbiased_tie :
    let fitness : Array Float := #[9, 5, 5, 2]
    2 ≤ fitness.size ∧ (∀ x ∈ fitness, Scalar.isNaN x = false) ∧
      Set.BijOn (contender (some 0)) {draw | draw < 3} {i | i < 4 ∧ i ≠ 0} ∧
      (∃ after, winner fitness 3 (some 0) (⟨4⟩ : SplitMix) = .ok (1, after)) ∧
      FirstBest fitness [3, 1, 2] 1 ∧
      (∃ i j after, parents fitness 3 (⟨4⟩ : SplitMix) = .ok ((i, j), after) ∧
        i < 4 ∧ j < 4 ∧ i ≠ j) ∧
      (Walk.drawsOf 4 (1, 3)).card = 2 := by
  intro fitness
  have hNumbers : ∀ x ∈ fitness, Scalar.isNaN x = false := by decide +kernel
  have hTwo : 2 ≤ fitness.size := by decide
  obtain ⟨hTournaments, hParents, hPairs⟩ :=
    choices_unbiased (ρ := SplitMix) hTwo 3
  obtain ⟨hMap, hWinners⟩ := hTournaments 0 (by decide)
  obtain ⟨i, drawn, after, hDrawn, hWinner, -, -, hBest⟩ := hWinners ⟨4⟩
  have hNames : (entrants 3 (some 0) 3 (⟨4⟩ : SplitMix)).1 = [3, 1, 2] := by decide +kernel
  obtain rfl : [3, 1, 2] = drawn := hNames.symm.trans (congrArg Prod.fst hDrawn)
  have hIndex : (winner fitness 3 (some 0) (⟨4⟩ : SplitMix)).toOption.map Prod.fst = some 1 := by
    decide +kernel
  rw [hWinner] at hIndex
  obtain rfl : i = 1 := Option.some.inj hIndex
  exact ⟨hTwo, hNumbers, hMap, ⟨after, hWinner⟩, hBest hNumbers, hParents ⟨4⟩,
    (hPairs 4 (by decide)).2.1 1 3 (by decide) (by decide)⟩

end Random

end SwapSearch
