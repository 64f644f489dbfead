import SwapSearch.Proofs.Tabu.Accuracy
import SwapSearch.Proofs.Tabu.Kept

/-!
# SwapSearch — why a search ends

A walk ends because its iterations are spent, because it is told to stop, or at a local
optimum that it may not leave. It is told to stop by the budget, by the monitor or by the
target. So if neither the budget nor the monitor is the cause, and bursts lead out of
every optimum, a walk that has iterations left has reached its target.

What has reached the target is the present solution, up to the tolerance. What the search
returns is the best solution on record, and a solution is recorded only if it beats the
best by more than the tolerance. So the value returned may fall short of the target by
the tolerance twice, and it does if the last rise is just too small for a record.

## Results

* `Walk.plan_of_iterate` — an iteration keeps to the plan and is counted.
* `ended_of_run`         — what is true of a walk when it ends.
* `improve_ends`         — a search ends at its target or at its limit.
* `improve_falls_short`  — its value need not lie within the tolerance of the target.
-/

namespace SwapSearch.Tabu

variable {L α μ ρ : Type}

-- ---------------------------------------------------------------------------
-- Plans
-- ---------------------------------------------------------------------------

/-- What a walk was told to do, and how often it has iterated. -/
structure Plan (α : Type) where
  settings : Settings α
  target : Option α
  iterations : Nat

/-- So many iterations later. -/
def Plan.after {α : Type} (p : Plan α) (made : Nat) : Plan α :=
  { p with iterations := p.iterations + made }

theorem Plan.after_after {α : Type} (p : Plan α) (m n : Nat) :
    (p.after m).after n = p.after (m + n) := by
  unfold after
  rw [Nat.add_assoc]

namespace Walk

def plan (w : Walk L α μ ρ) : Plan α where
  settings := w.settings
  target := w.target
  iterations := w.iterations

variable {w w' : Walk L α μ ρ} [Scalar α] [Monitor μ α]

theorem plan_stopRequested (w : Walk L α μ ρ) : w.stopRequested.2.plan = w.plan := by
  obtain ⟨monitor, hAsked⟩ := exists_stopRequested w
  rw [hAsked]
  rfl

theorem plan_recordIfBetter (w : Walk L α μ ρ) : w.recordIfBetter.plan = w.plan := by
  obtain ⟨best, bestValue, sinceBest, monitor, hRecorded⟩ := exists_recordIfBetter w
  rw [hRecorded]
  rfl

variable [Landscape L α]

omit [Scalar α] in
theorem plan_of_refresh {hint : Option (Nat × Nat)} (h : w.refresh hint = .ok w') :
    w'.plan = w.plan := by
  obtain ⟨landscape, gains, cost, monitor, -, -, -, hNext⟩ := exists_of_refresh h
  rw [hNext]
  rfl

theorem plan_of_exchange {i j : Nat} (h : w.exchange i j = .ok w') : w'.plan = w.plan := by
  obtain ⟨landscape, gains, cost, monitor, -, -, -, hNext⟩ := exists_of_exchange h
  rw [hNext]
  rfl

/-- Only the count of iterations ever changes. -/
theorem kept_plan (p : Plan α) :
    Kept (fun w : Walk L α μ ρ => w.plan = p) (fun w => w.plan = p) (fun w => w.plan = p) where
  ask w h := ⟨w.plan_stopRequested.trans h, fun _ => w.plan_stopRequested.trans h⟩
  weaken _ h := h
  draw _ _ h := h
  skip w next h hSkip := by
    rw [exists_of_skip hSkip]
    exact h
  swap _ _ _ _ h _ hExchange := (plan_of_exchange hExchange).trans h
  calm _ h _ := h
  relax _ h := h
  record w h := w.plan_recordIfBetter.trans h
  prepare _ _ _ _ _ _ _ h := h

variable [RandomSource ρ]

/-- An iteration is counted, and there is only one reason not to go on after it. -/
theorem plan_of_iterate {progress : Progress L α μ ρ} (h : w.iterate = .ok progress) :
    progress.walk.plan = w.plan.after 1 ∧
      ∀ last, progress = .settled last → last.settings.perturbation = .disabled ∧
        last.gains.bestMove.filter (0 < ·.gain) = none := by
  cases iterated_of_iterate h with
  | climbed hMove _ hClimb =>
    exact ⟨(kept_plan _).of_climb (w := w.counted) rfl hMove hClimb, nofun⟩
  | launched _ _ _ hLaunch => exact ⟨(kept_plan _).of_launch rfl hLaunch, nofun⟩
  | settled hOptimum hKind =>
    refine ⟨rfl, fun last hLast => ?_⟩
    obtain rfl := Progress.settled.inj hLast
    exact ⟨hKind, hOptimum⟩

end Walk

-- ---------------------------------------------------------------------------
-- Ends
-- ---------------------------------------------------------------------------

/-- The monitor has just asked to stop: it is what such a poll leaves. -/
def HasAsked [Monitor μ α] (m : μ) : Prop := ∃ before : μ, Monitor.poll before = (true, m)

/-- A monitor that does not change when it is asked has just asked to stop if it wishes to. -/
theorem hasAsked_iff [Monitor μ α] (hPure : ∀ m : μ, (Monitor.poll m).2 = m) (m : μ) :
    HasAsked m ↔ (Monitor.poll m).1 = true := by
  constructor
  · rintro ⟨before, hPoll⟩
    have hSame : m = before := by rw [← hPure before, hPoll]
    rw [hSame, hPoll]
  · intro hWish
    exact ⟨m, Prod.ext hWish (hPure m)⟩

/-- The silent monitor never asks. -/
theorem not_hasAsked_silent (m : Silent α) : ¬ HasAsked m := by
  rw [hasAsked_iff fun _ => rfl]
  exact Bool.false_ne_true

/-- Why a walk ends that may iterate up to `last` times. -/
inductive Ended [Scalar α] [Monitor μ α] (last : Nat) (w : Walk L α μ ρ) : Prop
  | spent (hCount : w.iterations = last)
  | exhausted (hBudget : w.context.budget.isExhausted = true)
  | asked (hMonitor : HasAsked w.context.monitor)
  | reached {target : α} (hTarget : w.target = some target)
      (hReached : Scalar.reaches w.value target = true)
  | settled (hKind : w.settings.perturbation = .disabled)
      (hOptimum : w.gains.bestMove.filter (0 < ·.gain) = none)

section Ends

variable [Scalar α] [Monitor μ α] {w w' : Walk L α μ ρ}

/-- Who tells a walk to stop. -/
theorem told_of_stopRequested (h : w.stopRequested.1 = true) :
    w.stopRequested.2.context.budget.isExhausted = true ∨
    HasAsked w.stopRequested.2.context.monitor ∨
    ∃ target, w.stopRequested.2.target = some target ∧
      Scalar.reaches w.stopRequested.2.value target = true := by
  unfold Walk.stopRequested at h ⊢
  split at h
  · next hExhausted =>
    rw [if_pos hExhausted]
    exact Or.inl hExhausted
  · next hOpen =>
    rw [if_neg hOpen]
    rcases Bool.or_eq_true_iff.mp h with hWish | hTarget
    · exact Or.inr (Or.inl ⟨w.context.monitor, Prod.ext hWish rfl⟩)
    · exact Or.inr (Or.inr ((Option.any_eq_true ..).mp hTarget))

theorem ended_of_stopRequested (last : Nat) (h : w.stopRequested.1 = true) :
    Ended last w.stopRequested.2 := by
  obtain hBudget | hMonitor | ⟨target, hTarget, hReached⟩ := told_of_stopRequested h
  · exact .exhausted hBudget
  · exact .asked hMonitor
  · exact .reached hTarget hReached

variable [Landscape L α] [RandomSource ρ]

/-- **Why a walk ends.** It has kept to its plan, with no more iterations than it was allowed. -/
theorem ended_of_run {limit : Nat} (h : Walk.run limit w = .ok w') :
    Ended (w.iterations + limit) w' ∧ ∃ made ≤ limit, w'.plan = w.plan.after made := by
  -- the iterations made count from where the walk is, so it is generalized
  induction limit generalizing w with
  | zero =>
    obtain rfl := Except.ok.inj h
    exact ⟨.spent rfl, 0, le_rfl, rfl⟩
  | succ limit ih =>
    unfold Walk.run Walk.runM at h
    have hPlan := w.plan_stopRequested
    have hStop := ended_of_stopRequested (w := w) (w.iterations + (limit + 1))
    generalize w.stopRequested = asked at h hPlan hStop
    obtain ⟨stop, v⟩ := asked
    cases stop with
    | true =>
      obtain rfl := Except.ok.inj h
      exact ⟨hStop rfl, 0, Nat.zero_le _, hPlan⟩
    | false =>
      obtain ⟨progress, hIterate, h⟩ := exists_of_bind_ok h
      obtain ⟨hCounted, hSettled⟩ := Walk.plan_of_iterate hIterate
      have hNext : progress.walk.plan = w.plan.after 1 :=
        hCounted.trans (congrArg (Plan.after · 1) hPlan)
      cases progress with
      | continued next =>
        have hNext : next.plan = w.plan.after 1 := hNext
        have hCount : next.iterations = w.iterations + 1 := congrArg Plan.iterations hNext
        -- what is left to iterate was one more before
        obtain ⟨hEnded, made, hMade, hLast⟩ := ih h
        rw [hCount, Nat.add_assoc, Nat.add_comm 1] at hEnded
        rw [hNext, Plan.after_after] at hLast
        exact ⟨hEnded, 1 + made, by omega, hLast⟩
      | settled last =>
        obtain rfl := Except.ok.inj h
        obtain ⟨hKind, hOptimum⟩ := hSettled last rfl
        exact ⟨.settled hKind hOptimum, 1, Nat.le_add_left .., hNext⟩

theorem ended_of_walk {limit : Nat} (hTwo : 2 ≤ w.size) (hLimit : 1 ≤ limit)
    (h : Search.walk limit w = .ok w') :
    Ended (w.iterations + limit) w' ∧ ∃ made ≤ limit, w'.plan = w.plan.after made := by
  have hPlan := w.plan_stopRequested
  obtain ⟨hIdle, -⟩ | ⟨-, -, hStop, rfl⟩ | ⟨-, -, -, next, hRefresh, hRun⟩ := exists_of_walk h
  · omega
  · exact ⟨ended_of_stopRequested _ hStop, 0, Nat.zero_le _, hPlan⟩
  · have hNext : next.plan = w.plan := (Walk.plan_of_refresh hRefresh).trans hPlan
    have hCount : next.iterations = w.iterations := congrArg Plan.iterations hNext
    have hEnded := ended_of_run hRun
    rwa [hCount, hNext] at hEnded

end Ends

-- ---------------------------------------------------------------------------
-- Searches
-- ---------------------------------------------------------------------------

section Searches

variable [ExactScalar α] [Monitor μ α] [Landscape L α] [RandomSource ρ]
  {f : Permutation → α} {s : Search α} {start : Permutation} {value : α} {limit : Nat}
  {context rest : Context L μ ρ} {outcome : Outcome α}

/-- The last walk of a search: why it has ended, what it has on record, and that it knows the value
of where it stands. -/
theorem exists_of_improve (hContract : HonoursGains f context.landscape)
    (hValue : Landscape.evaluate context.landscape start.values = .ok value)
    (hTwo : 2 ≤ start.size) (hLimit : 1 ≤ limit)
    (h : s.improve start value limit context = .ok (outcome, rest)) :
    ∃ final : Walk L α μ ρ, outcome = final.outcome ∧ rest = final.context ∧
      final.settings = s.settings ∧ final.target = s.target ∧
      start.size = Landscape.size context.landscape ∧ Ended limit final ∧
      Recorded f start final.ledger ∧ final.value = f final.current := by
  obtain ⟨opened, final, hBegin, hWalk, rfl, rfl⟩ := Search.exists_of_improve h
  obtain ⟨hSize, blank, memory, hBlank, -, rfl⟩ := Search.exists_of_begin hBegin
  have hOpened : 2 ≤ (s.opened start value context blank memory).size := hTwo
  obtain ⟨hCause, made, -, hLast⟩ := ended_of_walk hOpened hLimit hWalk
  have hEnded : Ended limit final := Nat.zero_add limit ▸ hCause
  -- the value given is the true one, so the walk opens as its invariant asks
  obtain rfl : value = f start :=
    Except.ok.inj (hValue.symm.trans (hContract.evaluate start hSize))
  rw [← Search.result_observeWalk] at hWalk
  obtain ⟨hRecorded, hCurrent⟩ :=
    (upholds_observeWalk hContract hSize (GainTable.size_of_allocate hBlank) limit rfl).result
      final hWalk
  exact ⟨final, rfl, rfl, congrArg Plan.settings hLast, congrArg Plan.target hLast, hSize, hEnded,
    hRecorded, hCurrent⟩

/-- **A search ends at its target or at its limit.** In a landscape that honours its gains, let a
search with bursts return from a start with its value and at least one neighbour, without having
used up the budget and without having been asked to stop by the monitor. If it has a target and has
made fewer iterations than allowed, the solution where it ended has reached the target up to the
tolerance, and the value returned has reached it up to twice the tolerance. If it has no target, it
has made all iterations. -/
theorem improve_ends (hContract : HonoursGains f context.landscape)
    (hValue : Landscape.evaluate context.landscape start.values = .ok value)
    (hKind : s.settings.perturbation ≠ .disabled) (hTwo : 2 ≤ start.size) (hLimit : 1 ≤ limit)
    (h : s.improve start value limit context = .ok (outcome, rest))
    (hLeft : rest.budget.isExhausted = false) (hQuiet : ¬ HasAsked rest.monitor) :
    (∀ target, s.target = some target → outcome.iterations < limit →
      target - 2 * Scalar.tolerance ≤ outcome.value ∧
      ∃ v, Landscape.evaluate context.landscape (replay start outcome.trail).values = .ok v ∧
        target - Scalar.tolerance ≤ v) ∧
    (s.target = none → outcome.iterations = limit) := by
  obtain ⟨final, rfl, rfl, hSettings, hTarget, hSize, hEnded, hRecorded, hCurrent⟩ :=
    exists_of_improve hContract hValue hTwo hLimit h
  -- four of the five causes are excluded or say what is claimed
  cases hEnded with
  | spent hCount =>
    refine ⟨fun target _ hFewer => ?_, fun _ => hCount⟩
    exact absurd hCount (Nat.ne_of_lt hFewer)
  | exhausted hBudget => exact nomatch hLeft.symm.trans hBudget
  | asked hMonitor => exact absurd hMonitor hQuiet
  | settled hDisabled _ => exact absurd (hSettings ▸ hDisabled) hKind
  | @reached reached hSome hReached =>
    rw [hTarget] at hSome
    refine ⟨fun target hGiven _ => ?_, fun hNone => nomatch hNone.symm.trans hSome⟩
    obtain rfl := Option.some.inj (hGiven.symm.trans hSome)
    -- the walk knows the value of where it stands, and its best covers it up to the tolerance
    have hReplayed : final.current = replay start final.trail := hRecorded.current_eq
    have hEnd : target - Scalar.tolerance ≤ f final.current :=
      hCurrent ▸ of_decide_eq_true hReached
    have hCovered : f final.current - Scalar.tolerance ≤ final.bestValue :=
      hRecorded.covers_current
    refine ⟨?_, f final.current, ?_, hEnd⟩
    · show target - 2 * Scalar.tolerance ≤ final.bestValue
      linarith
    · show Landscape.evaluate context.landscape (replay start final.trail).values = _
      rw [← hReplayed]
      refine hContract.evaluate final.current ?_
      rw [hReplayed, size_replay]
      exact hSize

end Searches

/-- The target is the value of the best solution, which lies one exchange away. -/
theorem improve_ends_at_target :
    HonoursGains (fun p => rising p.values) risingContext.landscape ∧
    Landscape.evaluate risingContext.landscape falling.values = .ok 1 ∧
    (defaultSearch.withTarget 5).settings.perturbation ≠ .disabled ∧ 2 ≤ falling.size ∧ 1 ≤ 6 ∧
    ∃ outcome rest,
      (defaultSearch.withTarget 5).improve falling 1 6 risingContext = .ok (outcome, rest) ∧
      rest.budget.isExhausted = false ∧ ¬ HasAsked rest.monitor ∧ outcome.iterations < 6 ∧
      5 - 2 * Scalar.tolerance ≤ outcome.value := by
  have hContract : HonoursGains (fun p => rising p.values) risingContext.landscape :=
    honoursGains_ofEvaluation fun _ _ => rfl
  have hValue : Landscape.evaluate risingContext.landscape falling.values = .ok 1 := by
    decide +kernel
  have hKind : (defaultSearch.withTarget 5).settings.perturbation ≠ .disabled := by
    decide +kernel
  have hTwo : 2 ≤ falling.size := by decide
  have hLimit : 1 ≤ 6 := by decide
  -- a solution of value five is one exchange away, and the walk ends before its limit
  have hRun : ((defaultSearch.withTarget 5).improve falling 1 6 risingContext).toOption.map
      (fun returned => decide (returned.1.iterations < 6 ∧ returned.2.budget.isExhausted = false)) =
        some true := by decide +kernel
  obtain ⟨⟨outcome, rest⟩, hReturned, hChecked⟩ := exists_of_toOption_map hRun
  obtain ⟨hFewer, hLeft⟩ := of_decide_eq_true hChecked
  have hQuiet : ¬ HasAsked rest.monitor := not_hasAsked_silent rest.monitor
  obtain ⟨hReaches, -⟩ :=
    improve_ends hContract hValue hKind hTwo hLimit hReturned hLeft hQuiet
  exact ⟨hContract, hValue, hKind, hTwo, hLimit, outcome, rest, hReturned, hLeft, hQuiet, hFewer,
    (hReaches 5 rfl hFewer).1⟩

/-- Of two solutions, one is better by just the tolerance. -/
def slight (values : Array Nat) : ℚ := if values = #[1, 0] then Scalar.tolerance else 0

def slightContext : Context (Objective ℚ) (Silent ℚ) Random.SplitMix where
  landscape := Objective.ofEvaluation 2 fun values => .ok (slight values)
  budget := Budget.grant 1000
  monitor := {}
  random := ⟨7⟩

/-- The walk ends at the better solution, whose value differs from the target by the tolerance. It
is no better than the start by more than the tolerance, so the start is returned. -/
theorem improve_falls_short :
    HonoursGains (fun p => slight p.values) slightContext.landscape ∧
    Landscape.evaluate slightContext.landscape (Permutation.identity 2).values = .ok 0 ∧
    (defaultSearch.withTarget (2 * Scalar.tolerance)).settings.perturbation = .normal ∧
    ∃ outcome rest, (defaultSearch.withTarget (2 * Scalar.tolerance)).improve
        (Permutation.identity 2) 0 10 slightContext = .ok (outcome, rest) ∧
      outcome.iterations < 10 ∧ rest.budget.isExhausted = false ∧ ¬ HasAsked rest.monitor ∧
      ¬ 2 * Scalar.tolerance - Scalar.tolerance ≤ outcome.value := by
  have hRun : ((defaultSearch.withTarget (2 * Scalar.tolerance)).improve
      (Permutation.identity 2) 0 10 slightContext).toOption.map (fun returned =>
        decide (returned.1.iterations < 10 ∧ returned.2.budget.isExhausted = false ∧
          ¬ 2 * Scalar.tolerance - Scalar.tolerance ≤ returned.1.value)) = some true := by
    decide +kernel
  obtain ⟨⟨outcome, rest⟩, hReturned, hChecked⟩ := exists_of_toOption_map hRun
  obtain ⟨hFewer, hLeft, hShort⟩ := of_decide_eq_true hChecked
  have hQuiet : ¬ HasAsked rest.monitor := not_hasAsked_silent rest.monitor
  exact ⟨honoursGains_ofEvaluation fun _ _ => rfl, by decide +kernel, by decide +kernel, outcome,
    rest, hReturned, hFewer, hLeft, hQuiet, hShort⟩

end SwapSearch.Tabu
