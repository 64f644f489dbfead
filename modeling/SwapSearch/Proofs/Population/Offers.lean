import Mathlib.Data.List.Dedup
import SwapSearch.Proofs.Population.Elites
import SwapSearch.Proofs.Scalar.Ranking

/-!
# SwapSearch — a history of offers

An elite set that has been offered one member after the other has the best of all of them:
nothing that it does not have is fitter than what it has, and it has as many as there were
different solutions, up to its capacity. Members may be offered again, those that the set
has and those that it has given up.

Every answer says whether the set took the member. It does so for a solution that it does
not have, and gives up another one at most, so its solutions change exactly then.

The member that has to go is the one that ranks lowest, and the one that comes has to have
a larger fitness. The rank tells the two zeros apart and the comparison does not, so of
members with fitness zero it depends on the order of the offers which ones are kept.

## Results

* `keeps_foldl`   — what a set has after a history of offers.
* `Keeps.size_eq` — how many members it has.
* `offer_answer`  — the answer says whether the set changed.
* `elites_best`   — the best of all that was offered.
-/

namespace SwapSearch

namespace EliteSet

open OrderedScalar

variable {α : Type} [Scalar α] {s : EliteSet α} {offers : List (Member α)} {m : Member α}

/-- The set after some offers, the first one first. -/
def afterOffers (s : EliteSet α) (offers : List (Member α)) : EliteSet α :=
  offers.foldl (fun s m => (s.offer m).2) s

/-- The solutions that the set has. -/
def solutions (s : EliteSet α) : List Permutation := s.members.toList.map (·.solution)

omit [Scalar α] in
theorem mem_solutions_iff {solution : Permutation} :
    solution ∈ s.solutions ↔ ∃ e ∈ s.members, e.solution = solution := by
  simp [solutions]

-- ---------------------------------------------------------------------------
-- Members
-- ---------------------------------------------------------------------------

/-- The capacity is never exceeded, and is used up if so many solutions have been offered. -/
theorem Keeps.size_eq (h : s.Keeps offers) :
    s.size = min s.capacity (offers.map (·.solution)).dedup.length := by
  have hSize : s.solutions.length = s.size := by simp [solutions, size]
  have hOffered : s.solutions ⊆ (offers.map (·.solution)).dedup := by
    intro solution hMem
    obtain ⟨e, he, rfl⟩ := mem_solutions_iff.mp hMem
    exact List.mem_dedup.mpr (List.mem_map_of_mem (h.offered e he))
  have hFew : s.size ≤ (offers.map (·.solution)).dedup.length :=
    hSize ▸ (h.distinct.subperm hOffered).length_le
  rcases h.size_le.eq_or_lt with hFull | hRoom
  · omega
  · -- with room left the set has everything that was offered
    have hAll : (offers.map (·.solution)).dedup ⊆ s.solutions := by
      intro solution hMem
      obtain ⟨m, hm, rfl⟩ := List.mem_map.mp (List.mem_dedup.mp hMem)
      exact mem_solutions_iff.mpr ((h.kept m hm).resolve_right fun ⟨hFull, _⟩ => hRoom.ne hFull)
    have hMany : (offers.map (·.solution)).dedup.length ≤ s.size :=
      hSize ▸ ((List.nodup_dedup _).subperm hAll).length_le
    omega

/-- What a set has after a history of offers. -/
theorem keeps_foldl [OrderedScalar α] [RankedScalar α] {before later : List (Member α)}
    (h : s.Keeps before) (hConsistent : Consistent (later.reverse ++ before)) :
    (s.afterOffers later).Keeps (later.reverse ++ before) := by
  induction later generalizing s before with
  | nil => exact h
  | cons m later ih =>
    rw [List.reverse_cons, List.append_assoc, List.singleton_append] at hConsistent ⊢
    refine ih (h.offer ?_) hConsistent
    exact hConsistent.mono (List.subset_append_right _ _)

@[simp] theorem capacity_offer (s : EliteSet α) (m : Member α) :
    (s.offer m).2.capacity = s.capacity := by
  unfold offer displace
  split_ifs
  · rfl
  · rfl
  · split
    · rfl
    · split_ifs <;> rfl

theorem capacity_afterOffers (s : EliteSet α) (offers : List (Member α)) :
    (s.afterOffers offers).capacity = s.capacity := by
  induction offers generalizing s with
  | nil => rfl
  | cons m offers ih => exact (ih (s.offer m).2).trans (capacity_offer s m)

-- ---------------------------------------------------------------------------
-- Answers
-- ---------------------------------------------------------------------------

/-- A member that is declined leaves the set alone, and one that is taken brings a solution that the
set did not have. -/
theorem offer_cases (s : EliteSet α) (m : Member α) :
    s.offer m = (false, s) ∨
      (s.offer m).1 = true ∧ m.solution ∉ s.solutions ∧ m.solution ∈ (s.offer m).2.solutions := by
  unfold offer
  split
  · exact Or.inl rfl
  · next hNew =>
    rw [Member.listed_iff, ← mem_solutions_iff] at hNew
    split
    · exact Or.inr ⟨rfl, hNew, mem_solutions_iff.mpr ⟨m, Array.mem_push_self, rfl⟩⟩
    · unfold displace
      split
      · exact Or.inl rfl
      · next low _ =>
        split
        · next hFitter =>
          -- there is a lowest member only at a place in the set
          have hLow : low < s.members.size := by
            by_contra hOut
            rw [Array.getElem?_eq_none (Nat.not_lt.mp hOut)] at hFitter
            exact nomatch hFitter
          have hThere : m ∈ s.members.setIfInBounds low m :=
            Array.mem_of_getElem? (Array.getElem?_setIfInBounds_self_of_lt hLow)
          exact Or.inr ⟨rfl, hNew, mem_solutions_iff.mpr ⟨m, hThere, rfl⟩⟩
        · exact Or.inl rfl

/-- **The answer.** It says whether the set has changed, and whether its solutions have. -/
theorem offer_answer (s : EliteSet α) (m : Member α) :
    ((s.offer m).1 = true ↔ (s.offer m).2 ≠ s) ∧
      ((s.offer m).1 = true ↔
        ¬ ∀ solution, solution ∈ (s.offer m).2.solutions ↔ solution ∈ s.solutions) := by
  rcases offer_cases s m with hDeclined | ⟨hTaken, hNew, hThere⟩
  · rw [hDeclined]
    simp
  · refine ⟨iff_of_true hTaken fun hSame => ?_, iff_of_true hTaken fun hSame => ?_⟩
    · rw [hSame] at hThere
      exact hNew hThere
    · exact hNew ((hSame m.solution).mp hThere)

-- ---------------------------------------------------------------------------
-- The best
-- ---------------------------------------------------------------------------

/-- **The best of all that was offered.** A set with room for at least one member can be made, and
after any history of offers in which a solution always comes with an equal fitness, a number, its
members are different solutions that were offered, as many as there were or as it has room for; what
it does not have is no fitter than what it has; and every answer on the way has said whether the set
changed. -/
theorem elites_best [OrderedScalar α] [RankedScalar α] {capacity : Nat} (hRoom : 1 ≤ capacity)
    (hNumber : ∀ m ∈ offers, Scalar.isNaN m.fitness = false)
    (hEqual : ∀ m ∈ offers, ∀ m' ∈ offers, m.solution = m'.solution →
      (m.fitness == m'.fitness) = true) :
    ∃ start : EliteSet α, empty capacity = .ok start ∧
      (∀ e ∈ (start.afterOffers offers).members, e ∈ offers) ∧
      (start.afterOffers offers).solutions.Nodup ∧
      (start.afterOffers offers).size = min capacity (offers.map (·.solution)).dedup.length ∧
      (∀ m ∈ offers, m.solution ∉ (start.afterOffers offers).solutions →
        ∀ e ∈ (start.afterOffers offers).members, m.fitness ≤ e.fitness) ∧
      ∀ earlier m later, offers = earlier ++ m :: later →
        (((start.afterOffers earlier).offer m).1 = true ↔
          start.afterOffers (earlier ++ [m]) ≠ start.afterOffers earlier) ∧
        (((start.afterOffers earlier).offer m).1 = true ↔
          ¬ ∀ solution, solution ∈ (start.afterOffers (earlier ++ [m])).solutions ↔
            solution ∈ (start.afterOffers earlier).solutions) := by
  have hEmpty : empty capacity = .ok (⟨capacity, #[]⟩ : EliteSet α) := if_neg (by omega)
  -- the history is told last offer first
  have hConsistent : Consistent (offers.reverse ++ []) := by
    rw [List.append_nil]
    exact ⟨fun m hm => hNumber m (List.mem_reverse.mp hm), fun m hm m' hm' hSame =>
      (beq_iff_le_le.mp (hEqual m (List.mem_reverse.mp hm) m' (List.mem_reverse.mp hm') hSame)).1⟩
  have hKeeps := keeps_foldl (keeps_empty hEmpty) hConsistent
  rw [List.append_nil] at hKeeps
  refine ⟨⟨capacity, #[]⟩, hEmpty, fun e he => List.mem_reverse.mp (hKeeps.offered e he),
    hKeeps.distinct, ?_, fun m hm hNot => ?_, fun earlier m later _ => ?_⟩
  · have hSize := hKeeps.size_eq
    rwa [capacity_afterOffers, List.map_reverse,
      ((List.reverse_perm (offers.map (·.solution))).dedup).length_eq] at hSize
  · have hKept := hKeeps.kept m (List.mem_reverse.mpr hm)
    exact (hKept.resolve_left fun hThere => hNot (mem_solutions_iff.mpr hThere)).2
  · have hNext : afterOffers ⟨capacity, #[]⟩ (earlier ++ [m]) =
        ((afterOffers ⟨capacity, #[]⟩ earlier).offer m).2 := List.foldl_append
    rw [hNext]
    exact offer_answer _ m

/-- Three solutions. The second one is as fit as the first, and it is given up for the third because
its zero is the negative one; offered again with the other zero, it is declined. -/
def zeroAndOne : List (Member Float) :=
  [⟨.identity 1, [], 0⟩, ⟨.identity 2, [], -0⟩, ⟨.identity 3, [], 1⟩, ⟨.identity 2, [], 0⟩]

theorem elites_best_zeros :
    (∀ m ∈ zeroAndOne, Scalar.isNaN m.fitness = false) ∧
    (∀ m ∈ zeroAndOne, ∀ m' ∈ zeroAndOne, m.solution = m'.solution →
      (m.fitness == m'.fitness) = true) ∧
    ∃ start : EliteSet Float, empty 2 = .ok start ∧ (start.afterOffers zeroAndOne).size = 2 ∧
      ∀ m ∈ zeroAndOne, m.solution ∉ (start.afterOffers zeroAndOne).solutions →
        ∀ e ∈ (start.afterOffers zeroAndOne).members, m.fitness ≤ e.fitness := by
  have hNumber : ∀ m ∈ zeroAndOne, Scalar.isNaN m.fitness = false := by decide +kernel
  have hEqual : ∀ m ∈ zeroAndOne, ∀ m' ∈ zeroAndOne, m.solution = m'.solution →
      (m.fitness == m'.fitness) = true := by decide +kernel
  have hRoom : 1 ≤ 2 := by decide
  obtain ⟨start, hEmpty, -, -, hSize, hBest, -⟩ := elites_best hRoom hNumber hEqual
  have hDifferent : (zeroAndOne.map (·.solution)).dedup.length = 3 := by decide +kernel
  rw [hDifferent] at hSize
  exact ⟨hNumber, hEqual, start, hEmpty, hSize, hBest⟩

example : (empty 2 : Except Breach (EliteSet Float)).toOption.map
    (fun start => (start.afterOffers zeroAndOne).solutions) =
      some [.identity 1, .identity 3] := by decide +kernel

end EliteSet

end SwapSearch
