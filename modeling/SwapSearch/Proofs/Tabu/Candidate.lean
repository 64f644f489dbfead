import SwapSearch.Proofs.BestMove
import Mathlib.Logic.Relation
import SwapSearch.Proofs.Tabu.Ledger

/-!
# SwapSearch — what a burst may swap

A pair that was exchanged not long ago is tabu, unless it aspires: unless the exchange
would beat the best value. A burst may only swap pairs that are allowed in this sense,
apart from the random swaps of a normal burst.

`tabuCandidate` looks for the best allowed pair. It passes over every move that is no
better than the one it keeps, allowed or not, and asks of the others whether they are
allowed. What it keeps is allowed, so nothing is lost, and in exact arithmetic it finds
the first of the best allowed pairs. A pair aspires if its gain is large enough. So if
any pair aspires, the best allowed one does.

A step of an annealed burst draws among all allowed pairs. Whatever it draws and however
it is drawn, the pair is allowed under the tenure drawn for that step.

## Results

* `tabuCandidate_eq_none_iff`  — there is no candidate if no pair is allowed.
* `bestPair_of_tabuCandidate`  — the candidate is the first of the best allowed pairs.
* `aspires_of_tabuCandidate`   — it aspires if any pair does.
* `heeds_of_annealedPick`      — an annealed pick is an allowed pair, if there is one.
* `steps_of_annealedBurst`     — an annealed burst follows such picks only.
-/

namespace SwapSearch.Tabu

open Relation

namespace Walk

variable {L α μ ρ : Type}

section Allowed

variable [Scalar α] {w : Walk L α μ ρ} {tenure : α} {i j : Nat}

/-- The pair would beat the best value, or it is not tabu. -/
def Allows (w : Walk L α μ ρ) (tenure : α) (i j : Nat) : Prop :=
  w.aspires (w.gains.gain i j) = true ∨ w.memory.isTabu i j w.clock tenure = false

theorem not_allows_iff : ¬ w.Allows tenure i j ↔
    w.memory.isTabu i j w.clock tenure = true ∧ w.aspires (w.gains.gain i j) = false := by
  simp [Allows, and_comm]

theorem allows_iff_isEligible :
    w.Allows tenure i j ↔ w.isEligible tenure ⟨i, j, w.gains.gain i j⟩ = true := by
  simp [Allows, isEligible]

/-- The choice is an allowed pair, or there is none because no pair is allowed. -/
def Heeds (w : Walk L α μ ρ) (tenure : α) : Option (Nat × Nat) → Prop
  | some (i, j) => i < j ∧ j < w.gains.size ∧ w.Allows tenure i j
  | none => ∀ i j, i < j → j < w.gains.size → ¬ w.Allows tenure i j

/-- Moves are looked at one by one, and so are pairs. -/
theorem heeds_none_iff :
    w.Heeds tenure none ↔ ∀ m ∈ w.gains.moves, w.isEligible tenure m = false := by
  constructor
  · intro h m hMove
    obtain ⟨hij, hj, hGain⟩ := GainTable.mem_moves.mp hMove
    have hNot := mt allows_iff_isEligible.mpr (h m.first m.second hij hj)
    rw [← hGain] at hNot
    exact Bool.eq_false_iff.mpr hNot
  · intro h i j hij hj hAllowed
    have hMove : (⟨i, j, w.gains.gain i j⟩ : Move α) ∈ w.gains.moves :=
      GainTable.mem_moves.mpr ⟨hij, hj, rfl⟩
    exact nomatch (h _ hMove).symm.trans (allows_iff_isEligible.mp hAllowed)

theorem heeds_some_of_mem {m : Move α} (hMove : m ∈ w.gains.moves)
    (hEligible : w.isEligible tenure m = true) : w.Heeds tenure (some (m.first, m.second)) := by
  obtain ⟨hij, hj, hGain⟩ := GainTable.mem_moves.mp hMove
  refine ⟨hij, hj, allows_iff_isEligible.mpr ?_⟩
  rw [← hGain]
  exact hEligible

end Allowed

-- ---------------------------------------------------------------------------
-- The candidate
-- ---------------------------------------------------------------------------

section Candidate

variable [ExactScalar α] {w : Walk L α μ ρ} {tenure : α} {i j : Nat}

/-- **The candidate is the first of the best allowed pairs.** -/
theorem bestPair_of_tabuCandidate (h : w.tabuCandidate tenure = some (i, j)) :
    w.gains.BestPair (w.Allows tenure) i j := by
  rw [tabuCandidate_eq] at h
  obtain ⟨m, hKept, hPair⟩ := Option.map_eq_some_iff.mp h
  obtain ⟨rfl, rfl⟩ := Prod.mk.inj hPair
  have hBest := GainTable.bestPair_of_leads ((GainTable.foldl_keepBest _).2 m hKept)
  simp only [← allows_iff_isEligible] at hBest
  exact hBest

/-- There is no candidate if no pair is allowed. -/
theorem tabuCandidate_eq_none_iff : w.tabuCandidate tenure = none ↔ w.Heeds tenure none := by
  constructor
  · intro h
    rw [tabuCandidate_eq, Option.map_eq_none_iff] at h
    exact heeds_none_iff.mpr ((GainTable.foldl_keepBest _).1 h)
  · intro h
    by_contra hSome
    obtain ⟨⟨i, j⟩, hPair⟩ := Option.ne_none_iff_exists'.mp hSome
    have hBest := bestPair_of_tabuCandidate hPair
    exact h i j hBest.lt hBest.lt_size hBest.passes

/-- What gains more aspires sooner. -/
theorem aspires_of_le {gain gain' : α} (hLe : gain ≤ gain') (h : w.aspires gain = true) :
    w.aspires gain' = true := by
  have hBeats : w.bestValue + Scalar.tolerance < w.value + gain := of_decide_eq_true h
  exact decide_eq_true (hBeats.trans_le (by linarith))

/-- If any pair would beat the best value, the candidate does. -/
theorem aspires_of_tabuCandidate (h : w.tabuCandidate tenure = some (i, j)) {k l : Nat}
    (hkl : k < l) (hl : l < w.gains.size) (hAspires : w.aspires (w.gains.gain k l) = true) :
    w.aspires (w.gains.gain i j) = true :=
  aspires_of_le ((bestPair_of_tabuCandidate h).largest k l hkl hl (Or.inl hAspires)) hAspires

end Candidate

-- ---------------------------------------------------------------------------
-- Annealed bursts
-- ---------------------------------------------------------------------------

section Annealed

variable [Scalar α] [RandomSource ρ] {w w' : Walk L α μ ρ} {temperature : α}

/-- Where there are candidates, one is drawn. -/
theorem metropolisPick_eq_none_iff {candidates : Array (Move α)} :
    (w.metropolisPick candidates temperature).1 = none ↔ candidates = #[] := by
  unfold metropolisPick
  split
  · next hEmpty => simpa using hEmpty
  · next hSome =>
    have hNot : candidates ≠ #[] := by simpa using hSome
    refine iff_of_false ?_ hNot
    dsimp only
    split
    · exact nofun
    · -- no candidate has passed the test, so one is drawn from all of them, of which there is one
      have hSize := (Random.shuffle_perm candidates w.context.random).length_eq
      rw [Array.length_toList, Array.length_toList] at hSize
      have hPositive : 0 < (Random.shuffle candidates w.context.random).1.size :=
        hSize ▸ Array.size_pos_iff.mpr hNot
      simp [Random.below_lt hPositive]

/-- **An annealed pick is an allowed pair, if there is one.** -/
theorem heeds_of_annealedPick {picked : Option (Nat × Nat) × Walk L α μ ρ}
    (h : w.annealedPick temperature = .ok picked) :
    ∃ tenure drawn, w.drawTenure = .ok (tenure, drawn) ∧ drawn.Heeds tenure picked.1 := by
  obtain ⟨⟨tenure, drawn⟩, hDrawn, h⟩ := exists_of_bind_ok h
  refine ⟨tenure, drawn, hDrawn, ?_⟩
  dsimp only at h
  split at h
  · next m hFound =>
    obtain rfl := Except.ok.inj h
    -- what aspires may be taken whatever the tenure
    have hAspires : drawn.isEligible tenure m = true := by
      simpa [isEligible] using Or.inl (List.find?_some hFound)
    exact heeds_some_of_mem (List.mem_of_find?_eq_some hFound) hAspires
  · next hNone =>
    obtain rfl := Except.ok.inj h
    -- nothing aspires, so a pair is eligible if and only if it is not tabu
    have hCalm : ∀ m ∈ drawn.gains.moves, drawn.aspires m.gain = false := fun m hMove =>
      Bool.eq_false_iff.mpr fun hAspires => List.find?_eq_none.mp hNone m hMove hAspires
    cases hChoice : (drawn.metropolisPick _ temperature).1 with
    | none =>
      have hEmpty := congrArg Array.toList (metropolisPick_eq_none_iff.mp hChoice)
      refine heeds_none_iff.mpr fun m hMove => ?_
      have hTabu := List.filter_eq_nil_iff.mp hEmpty m hMove
      simpa [isEligible, hCalm m hMove] using hTabu
    | some pair =>
      obtain ⟨m, hCandidate, rfl⟩ := mem_of_metropolisPick hChoice
      obtain ⟨hMove, hFree⟩ := List.mem_filter.mp (List.mem_toArray.mp hCandidate)
      exact heeds_some_of_mem hMove (by simp [isEligible, hFree])

variable [Monitor μ α] [Landscape L α]

/-- What a step of an annealed burst does: it asks, and if it may go on it follows a pick, and the
pick heeds the tenure drawn for it. -/
inductive AnnealedStep (w : Walk L α μ ρ) : Walk L α μ ρ → Prop
  | told (hStop : w.stopRequested.1 = true) : AnnealedStep w w.stopRequested.2
  | followed {temperature tenure : α} {drawn picked next : Walk L α μ ρ}
      {choice : Option (Nat × Nat)} (hGo : w.stopRequested.1 = false)
      (hPick : w.stopRequested.2.annealedPick temperature = .ok (choice, picked))
      (hDrawn : w.stopRequested.2.drawTenure = .ok (tenure, drawn))
      (hHeeds : drawn.Heeds tenure choice) (hFollow : picked.follow choice = .ok next) :
      AnnealedStep w next

/-- **Every swap of an annealed burst heeds the tenure drawn for it.** -/
theorem steps_of_annealedBurst {alpha : α} {steps : Nat}
    (h : annealedBurst alpha steps temperature w = .ok w') :
    ReflTransGen AnnealedStep w w' := by
  -- the temperature falls from step to step, and no step depends on the ones before it
  induction steps generalizing temperature w with
  | zero =>
    obtain rfl := Except.ok.inj h
    exact .refl
  | succ steps ih =>
    unfold annealedBurst annealedBurstM burstM at h
    dsimp only at h
    split at h
    · next hStop =>
      obtain rfl := Except.ok.inj h
      exact .single (.told hStop)
    · next hGo =>
      obtain ⟨⟨choice, picked⟩, hPick, h⟩ := exists_of_bind_ok h
      obtain ⟨next, hFollow, h⟩ := exists_of_bind_ok h
      obtain ⟨tenure, drawn, hDrawn, hHeeds⟩ := heeds_of_annealedPick hPick
      have hNext : AnnealedStep w next :=
        .followed (Bool.eq_false_iff.mpr hGo) hPick hDrawn hHeeds hFollow
      split at h
      · obtain rfl := Except.ok.inj h
        exact .single hNext
      · exact .head hNext (ih h)

end Annealed

end Walk

end SwapSearch.Tabu
