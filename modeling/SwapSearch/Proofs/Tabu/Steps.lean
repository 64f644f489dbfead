import Mathlib.Logic.Relation
import SwapSearch.Proofs.Budget
import SwapSearch.Proofs.Tabu.Kept

/-!
# SwapSearch — the steps of a search

Seen from outside a search does three things. It asks its monitor whether to stop, it
records a new best, and it moves on: by an exchange, or to its own start at the first
scan. Moving on is charged, and before it moves on a search has asked whether the budget
is exhausted.

The *standing* of a walk is what these three change. Everything else that happens, the
picks and the lengths of bursts above all, leaves it alone. So a search is a sequence of
such steps from its start, and what every step preserves, a search preserves. Nothing is
asked of the landscape, of the numbers or of the random source.

## Results

* `steps_of_improve` — a search is a sequence of steps.
* `draws_of_steps`   — it charges scans, each after asking.
* `keeps_of_improve` — what every exchange keeps, a search keeps.
* `size_of_improve`  — what a search returns has the size of its start.
-/

namespace SwapSearch.Tabu

open Relation

/-- Where a walk is, the best it has recorded, what it has spent, and the monitor it has reported
to. -/
structure Standing (α μ : Type) where
  current : Permutation
  best : Permutation
  bestValue : α
  budget : Budget
  monitor : μ

namespace Standing

variable {α μ : Type} [Scalar α] [Monitor μ α]

/-- What a search can do. -/
inductive Step (s : Standing α μ) : Standing α μ → Prop
  | poll : Step s { s with monitor := (Monitor.poll s.monitor).2 }
  | record {value : α} (hBeats : Scalar.beats value s.bestValue = true) :
      Step s { s with
        best := s.current
        bestValue := value
        monitor := Monitor.onBest s.monitor value }
  | scan {p : Permutation} {cost : Nat} {monitor : μ}
      (hMove : p = s.current ∨ ∃ i j, p = s.current.swap i j)
      (hOpen : s.budget.isExhausted = false) (hCost : Budget.scanCost p.size = .ok cost)
      (hCharge : Monitor.onCharge s.monitor (s.budget.charge cost) = .ok monitor) :
      Step s { s with current := p, budget := s.budget.charge cost, monitor }

/-- Any number of steps. -/
abbrev Steps : Standing α μ → Standing α μ → Prop := ReflTransGen Step

variable {s s' : Standing α μ} {P : Permutation → Prop}

/-- What every exchange keeps is kept by a step. -/
theorem Step.keeps (hSwap : ∀ p i j, P p → P (p.swap i j)) (hStep : Step s s')
    (h : P s.current ∧ P s.best) : P s'.current ∧ P s'.best := by
  cases hStep with
  | poll => exact h
  | record _ => exact ⟨h.1, h.1⟩
  | scan hMove _ _ _ =>
    refine ⟨?_, h.2⟩
    rcases hMove with rfl | ⟨i, j, rfl⟩
    · exact h.1
    · exact hSwap _ i j h.1

theorem Steps.keeps (hSwap : ∀ p i j, P p → P (p.swap i j)) (hSteps : Steps s s')
    (h : P s.current ∧ P s.best) : P s'.current ∧ P s'.best := by
  induction hSteps with
  | refl => exact h
  | tail _ hLast ih => exact hLast.keeps hSwap ih

/-- A search stays among the solutions of one size. -/
theorem Steps.size_eq (hSteps : Steps s s') (h : s.best.size = s.current.size) :
    s'.current.size = s.current.size ∧ s'.best.size = s.current.size :=
  hSteps.keeps (P := fun p => p.size = s.current.size)
    (fun p i j hp => (Permutation.size_swap p i j).trans hp) ⟨rfl, h⟩

/-- A search charges scans, each after asking. -/
theorem draws_of_steps (hSteps : Steps s s') (h : s.best.size = s.current.size) :
    ReflTransGen (Budget.Draws (Budget.pairCount s.current.size)) s.budget s'.budget := by
  induction hSteps with
  | refl => exact .refl
  | tail hBefore hLast ih =>
    cases hLast with
    | poll => exact ih
    | record _ => exact ih
    | scan hMove hOpen hCost hCharge =>
      obtain ⟨hSize, -⟩ := Steps.size_eq (hBefore.tail (.scan hMove hOpen hCost hCharge)) h
      have hUnits := Nat.le_of_eq (congrArg Budget.pairCount hSize)
      rw [← Budget.eq_of_scanCost hCost] at hUnits
      exact ih.tail (.charge hUnits hOpen)

end Standing

open Standing

variable {L α μ ρ β : Type}

namespace Walk

def standing (w : Walk L α μ ρ) : Standing α μ where
  current := w.current
  best := w.best
  bestValue := w.bestValue
  budget := w.context.budget
  monitor := w.context.monitor

-- ---------------------------------------------------------------------------
-- Asking, recording and moving on
-- ---------------------------------------------------------------------------

variable [Scalar α] [Monitor μ α] {s : Standing α μ} {w w' : Walk L α μ ρ}

/-- Whoever is not told to stop has budget left. -/
theorem steps_stopRequested (h : Steps s w.standing) :
    Steps s w.stopRequested.2.standing ∧
      (w.stopRequested.1 = false → w.stopRequested.2.standing.budget.isExhausted = false) := by
  unfold stopRequested
  split
  · exact ⟨h, nofun⟩
  · next hOpen => exact ⟨h.tail .poll, fun _ => Bool.eq_false_iff.mpr hOpen⟩

theorem steps_recordIfBetter (h : Steps s w.standing) : Steps s w.recordIfBetter.standing := by
  unfold recordIfBetter
  split
  · next hBetter => exact h.tail (.record hBetter)
  · exact h

variable [Landscape L α]

/-- The first scan. -/
theorem steps_of_refresh {hint : Option (Nat × Nat)} (h : Steps s w.standing)
    (hOpen : w.standing.budget.isExhausted = false) (hRefresh : w.refresh hint = .ok w') :
    Steps s w'.standing := by
  obtain ⟨landscape, gains, cost, monitor, -, hCost, hCharge, hNext⟩ := exists_of_refresh hRefresh
  rw [hNext]
  exact h.tail (.scan (Or.inl rfl) hOpen hCost hCharge)

theorem steps_of_exchange {i j : Nat} (h : Steps s w.standing)
    (hOpen : w.standing.budget.isExhausted = false) (hExchange : w.exchange i j = .ok w') :
    Steps s w'.standing := by
  obtain ⟨landscape, gains, cost, monitor, -, hCost, hCharge, hNext⟩ :=
    exists_of_exchange hExchange
  rw [hNext]
  exact h.tail (.scan (Or.inr ⟨i, j, rfl⟩) hOpen hCost hCharge)

/-- A walk goes on only with budget left, and then all it does is a step. -/
theorem kept_steps (s : Standing α μ) :
    Kept (fun w : Walk L α μ ρ => Steps s w.standing)
      (fun w => Steps s w.standing ∧ w.standing.budget.isExhausted = false)
      (fun w => Steps s w.standing) where
  ask w h := by
    obtain ⟨hAsked, hOpen⟩ := steps_stopRequested h
    exact ⟨hAsked, fun hGo => ⟨hAsked, hOpen hGo⟩⟩
  weaken _ h := h.1
  draw _ _ h := h
  skip w next h hSkip := by
    rw [exists_of_skip hSkip]
    exact h.1
  swap _ _ _ _ h _ hExchange := steps_of_exchange h.1 h.2 hExchange
  calm _ h _ := h
  relax _ h := h
  record _ h := steps_recordIfBetter h
  prepare _ _ _ _ _ _ _ h := h

end Walk

-- ---------------------------------------------------------------------------
-- Searches
-- ---------------------------------------------------------------------------

namespace Search

variable [Scalar α] [Monitor μ α] [Landscape L α] [RandomSource ρ]

/-- The standing of a search at its start: the monitor has heard of the value. -/
def opening (start : Permutation) (value : α) (context : Context L μ ρ) : Standing α μ where
  current := start
  best := start
  bestValue := value
  budget := context.budget
  monitor := Monitor.onBest context.monitor value

variable {s : Search α} {start : Permutation} {value : α} {limit : Nat}
  {context rest : Context L μ ρ} {outcome : Outcome α}

/-- **A search is a sequence of steps** from its opening to what it returns. -/
theorem steps_of_improve (h : s.improve start value limit context = .ok (outcome, rest)) :
    start.size = Landscape.size context.landscape ∧
    ∃ final : Standing α μ, Steps (opening start value context) final ∧
      outcome.solution = final.best ∧ outcome.value = final.bestValue ∧
      rest.budget = final.budget ∧ rest.monitor = final.monitor := by
  obtain ⟨opened, final, hBegin, hWalk, rfl, rfl⟩ := Search.exists_of_improve h
  obtain ⟨hSize, gains, memory, -, -, rfl⟩ := exists_of_begin hBegin
  have hStart : Steps (opening start value context)
      (s.opened start value context gains memory).standing := .refl
  have hSteps : Steps (opening start value context) final.standing := by
    obtain ⟨-, rfl⟩ | ⟨-, -, -, rfl⟩ | ⟨-, -, hGo, next, hRefresh, hRun⟩ := exists_of_walk hWalk
    · exact hStart
    · exact (Walk.steps_stopRequested hStart).1
    · obtain ⟨hAsked, hOpen⟩ := Walk.steps_stopRequested hStart
      have hNext := Walk.steps_of_refresh hAsked (hOpen hGo) hRefresh
      exact (Walk.kept_steps _).of_run (fun _ h => h) hNext hRun
  exact ⟨hSize, final.standing, hSteps, rfl, rfl, rfl, rfl⟩

/-- **What exchanges keep, a search keeps.** -/
theorem keeps_of_improve {P : Permutation → Prop} (hSwap : ∀ p i j, P p → P (p.swap i j))
    (hStart : P start) (h : s.improve start value limit context = .ok (outcome, rest)) :
    P outcome.solution := by
  obtain ⟨-, final, hSteps, hSolution, -⟩ := steps_of_improve h
  rw [hSolution]
  exact (Steps.keeps hSwap hSteps ⟨hStart, hStart⟩).2

/-- What a search returns has the size of its start, which is that of the landscape. -/
theorem size_of_improve (h : s.improve start value limit context = .ok (outcome, rest)) :
    outcome.solution.size = Landscape.size context.landscape := by
  obtain ⟨hSize, -⟩ := steps_of_improve h
  rw [← hSize]
  exact keeps_of_improve (P := fun p => p.size = start.size)
    (fun p i j hp => (Permutation.size_swap p i j).trans hp) rfl h

/-- **A search asks before it works.** -/
theorem draws_of_improve (h : s.improve start value limit context = .ok (outcome, rest)) :
    ReflTransGen (Budget.Draws (Budget.pairCount start.size)) context.budget rest.budget := by
  obtain ⟨-, final, hSteps, -, -, hBudget, -⟩ := steps_of_improve h
  rw [hBudget]
  exact draws_of_steps hSteps rfl

end Search

end SwapSearch.Tabu
