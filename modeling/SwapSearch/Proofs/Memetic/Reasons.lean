import SwapSearch.Proofs.Memetic.Charges
import SwapSearch.Proofs.Scalar.Rounding

/-!
# SwapSearch — why a run stops

The best value is kept twice: by the watch, which decides whether the target is reached,
and by the best member, which is what the report is about. They do not change together.
With a single objective the watch hears of a value as soon as a local search finds it,
long before the member made of it is compared with the best; and a child waits for the
mutants of its iteration to be compared first. So the invariant is that the watch is
never behind, and that whatever it is ahead by belongs to a member that is still
*pending*. At the top of the loop none is.

Then the reason that a run gives for stopping can be read off the report.

Nothing is asked of the values but what `OrderedScalar` and `FaithfulScalar` say of them,
so all this holds in floating point.

## Results

* `Outlook.Hears.eq_hear` — of all that a local search reports only the last value matters.
* `watching_improving`    — improving may put the watch ahead, by a pending member.
* `watching_atTop`        — at the top of the loop the watch and the best member agree.
* `optimize_reason`       — what the reason for stopping says about the report.
-/

namespace SwapSearch.Memetic

open OrderedScalar FaithfulScalar

variable {α ρ : Type} [Scalar α]

-- ---------------------------------------------------------------------------
-- Looking for a reason
-- ---------------------------------------------------------------------------

omit [Scalar α] in
theorem deadline_of_deadlinePassed {w : Watch α} (h : w.deadlinePassed.1 = true) :
    w.deadline.isSome = true := by
  unfold Watch.deadlinePassed at h
  split at h
  · exact nomatch h
  · next hDeadline => rw [hDeadline]; rfl

/-- The order in which a run looks for a reason to stop. -/
theorem reason_of_stopReason {run ended : Run α ρ} {reason : StopReason}
    (h : run.stopReason = (some reason, ended)) :
    (reason = .targetReached ↔ run.watch.targetReached = true) ∧
    (reason = .budgetExhausted → run.budget.isExhausted = true) ∧
    (reason = .timeLimit → run.watch.deadline.isSome = true ∧ run.budget.isExhausted = false) := by
  -- the target is asked for first, then the budget, then the clock
  unfold Run.stopReason at h
  split at h
  · next hReached =>
    obtain ⟨hReason, -⟩ := Prod.mk.inj h
    obtain rfl := Option.some.inj hReason
    exact ⟨⟨fun _ => hReached, fun _ => rfl⟩, nofun, nofun⟩
  · next hNot =>
    split at h
    · next hExhausted =>
      obtain ⟨hReason, -⟩ := Prod.mk.inj h
      obtain rfl := Option.some.inj hReason
      exact ⟨⟨nofun, fun hReached => absurd hReached hNot⟩, fun _ => hExhausted, nofun⟩
    · next hOpen =>
      obtain ⟨hReason, -⟩ := Prod.mk.inj h
      cases hPassed : run.watch.deadlinePassed.1 with
      | false => exact nomatch (if_neg (Bool.eq_false_iff.mp hPassed)).symm.trans hReason
      | true =>
        obtain rfl := Option.some.inj ((if_pos hPassed).symm.trans hReason)
        exact ⟨⟨nofun, fun hReached => absurd hReached hNot⟩, nofun,
          fun _ => ⟨deadline_of_deadlinePassed hPassed, Bool.eq_false_iff.mpr hOpen⟩⟩

-- ---------------------------------------------------------------------------
-- The invariant
-- ---------------------------------------------------------------------------

/-- The watch goes by the settings. It is not behind the best member, and if it is ahead a pending
member has got as far. -/
structure Watching (objectives : List (Objective α)) (settings : Settings α)
    (pending : List (Member α)) (b : Books α) : Prop where
  objectives_eq : b.objectives = objectives
  timed : b.outlook.deadline.isSome = settings.timeLimit.isSome
  target_eq : b.outlook.target = settings.target
  follows : b.outlook.followsSearch = (objectives.length == 1)
  best_le : b.best.fitness ≤ b.outlook.best
  attained : b.outlook.best ≤ b.best.fitness ∨ ∃ m ∈ pending, b.outlook.best ≤ m.fitness

variable {objectives : List (Objective α)} {settings : Settings α} {pending : List (Member α)}
  {b b' : Books α} {m : Member α}

namespace Watching

theorem charge (h : Watching objectives settings pending b) (units : Nat) :
    Watching objectives settings pending (b.charge units) :=
  { h with }

theorem offer (h : Watching objectives settings pending b) :
    Watching objectives settings pending (b.offer m) :=
  { h with }

theorem suspend (h : Watching objectives settings pending b) :
    Watching objectives settings (m :: pending) b :=
  { h with
    attained := h.attained.imp_right fun ⟨p, hp, hLe⟩ => ⟨p, List.mem_cons_of_mem _ hp, hLe⟩ }

variable [OrderedScalar α]

/-- With nothing pending the watch has the value of the best member. -/
theorem agrees (h : Watching objectives settings [] b) :
    (b.outlook.best == b.best.fitness) = true :=
  beq_iff_le_le.mpr ⟨h.attained.resolve_right fun ⟨_, hm, _⟩ => List.not_mem_nil hm, h.best_le⟩

/-- So it finds the target reached exactly when the best member has reached it. -/
theorem targetReached_iff {run : Run α ρ} (h : Watching objectives settings [] run.books) :
    run.watch.targetReached = true ↔
      ∃ t, settings.target = some t ∧ Scalar.reaches run.best.fitness t = true := by
  obtain ⟨hAhead, hBehind⟩ := beq_iff_le_le.mp h.agrees
  have hTarget : run.watch.target = settings.target := h.target_eq
  unfold Watch.targetReached
  rw [hTarget, Option.any_eq_true]
  refine exists_congr fun t => and_congr_right fun _ => ?_
  unfold Scalar.reaches
  rw [decide_eq_true_iff, decide_eq_true_iff]
  exact ⟨fun hReached => le_trans hReached hAhead, fun hReached => le_trans hReached hBehind⟩

variable [FaithfulScalar α]

/-- A comparison with the best settles a pending member. -/
theorem compare (h : Watching objectives settings (m :: pending) b) :
    Watching objectives settings pending (b.compare m) := by
  obtain ⟨hBest, -⟩ := isNaN_of_le h.best_le
  unfold Books.compare
  split
  · next hLt =>
    have hAbove := le_of_lt hLt
    have hNumber := (isNaN_of_le hAbove).2
    refine ⟨h.objectives_eq, h.timed, h.target_eq, h.follows, Scalar.le_larger_right hNumber, ?_⟩
    show Scalar.larger b.outlook.best m.fitness ≤ m.fitness ∨ _
    rcases Scalar.larger_cases b.outlook.best m.fitness with hSecond | ⟨hFirst, -, hNot⟩
    · exact Or.inl (hSecond.symm ▸ le_self hNumber)
    · -- what the watch is ahead by belongs to another member
      refine Or.inr ?_
      rcases h.attained with hLe | ⟨p, hp, hLe⟩
      · exact absurd (le_trans hLe hAbove) hNot
      · rcases List.mem_cons.mp hp with rfl | hp
        · exact absurd hLe hNot
        · refine ⟨p, hp, ?_⟩
          show Scalar.larger b.outlook.best m.fitness ≤ p.fitness
          rwa [hFirst]
  · next hNot =>
    -- the pending member is not ahead of the best, so it attains nothing by itself
    refine ⟨h.objectives_eq, h.timed, h.target_eq, h.follows, h.best_le, ?_⟩
    rcases h.attained with hLe | ⟨p, hp, hLe⟩
    · exact Or.inl hLe
    · rcases List.mem_cons.mp hp with rfl | hp
      · have hBelow := (not_lt_iff_le hBest (isNaN_of_le hLe).2).mp hNot
        exact Or.inl (le_trans hLe hBelow)
      · exact Or.inr ⟨p, hp, hLe⟩

/-- A local search that the watch follows puts it ahead by the member that is made of it. -/
theorem hear {value : α} (h : Watching objectives settings pending b) (hLe : value ≤ m.fitness) :
    Watching objectives settings (m :: pending)
      { b with outlook := b.outlook.raise value } := by
  obtain ⟨-, hHeard⟩ := isNaN_of_le h.best_le
  refine ⟨h.objectives_eq, h.timed, h.target_eq, h.follows,
    le_trans h.best_le (Scalar.le_larger_left hHeard), ?_⟩
  show Scalar.larger b.outlook.best value ≤ _ ∨ ∃ p ∈ m :: pending, Scalar.larger _ value ≤ _
  rcases Scalar.larger_cases b.outlook.best value with hSecond | ⟨hFirst, -, -⟩
  · exact Or.inr ⟨m, List.mem_cons_self .., hSecond.symm ▸ hLe⟩
  · rw [hFirst]
    exact h.suspend.attained

end Watching

-- ---------------------------------------------------------------------------
-- Steps
-- ---------------------------------------------------------------------------

section Steps

variable [OrderedScalar α] [FaithfulScalar α]

/-- Of all that a local search reports only the last value matters. -/
theorem Outlook.Hears.eq_hear {o o' : Outlook α} {value : α} (h : o.Hears value o') :
    o' = o.hear value := by
  induction h with
  | first => rfl
  | @next value value' o' _ hBeats ih =>
    have hAbove : value ≤ value' := le_of_lt (lt_of_beats hBeats)
    rw [ih]
    unfold hear raise
    split
    · dsimp only
      rw [Scalar.larger_larger hAbove]
    · rfl

/-- A run begins with both best values at negative infinity. -/
theorem watching_of_begun {evaluations : Nat}
    (hBegun : Begun objectives evaluations settings b) : Watching objectives settings [] b := by
  have hSame : b.best.fitness = b.outlook.best := hBegun.best.trans hBegun.heard.symm
  have hSelf : b.outlook.best ≤ b.outlook.best := by
    rw [hBegun.heard]
    exact le_self isNaN_negInf
  refine ⟨hBegun.objectives_eq, hBegun.deadline, hBegun.target, hBegun.follows, ?_, Or.inl ?_⟩
  · rwa [hSame]
  · rwa [hSame]

variable [RandomSource ρ]

/-- **Improving.** The watch hears of a value only if the value is the fitness of the member that
is made. -/
theorem watching_improving (h : Watching objectives settings pending b)
    (hImproving : Books.Improving ρ b m b') :
    Watching objectives settings (m :: pending) b' := by
  obtain ⟨i, rfl, hImproves⟩ := Books.improves_of_improving hImproving
  obtain ⟨spent, outlook, -, hHears, rfl⟩ := hImproves.books
  obtain rfl := hHears.eq_hear
  have hHeard : Watching objectives settings (i.member :: pending)
      { b with outlook := b.outlook.hear i.outcome.value } := by
    unfold Outlook.hear
    -- a watch that follows has one objective, whose value is the mean up to the sign of zero
    split
    · next hFollows =>
      rw [h.follows, ← h.objectives_eq] at hFollows
      have hVector := hImproves.single (beq_iff_eq.mp hFollows)
      have hFinite := hImproves.finite i.outcome.value (by simp [hVector])
      have hFitness : i.member.fitness = Scalar.mean [i.outcome.value] := by
        rw [hImproves.member, hVector]
        rfl
      refine h.hear ?_
      rw [hFitness]
      exact (beq_iff_le_le.mp (FaithfulScalar.mean_singleton hFinite)).2
    · exact h.suspend
  exact { hHeard with }

/-- All steps keep the watch and the best member together. -/
theorem watching_invariant :
    Books.Invariant ρ fun pending _ b => Watching objectives settings pending b where
  improve _ h hImproving := watching_improving h hImproving
  settle h := h.compare.offer
  count h := { h with }
  evaluate _ h hImproving := watching_improving (h.charge 1) hImproving
  compare h := h.compare

theorem watching_prepare {evaluations : Nat} {clock : Clock} {random : ρ} {start : Run α ρ}
    (hPrepare : Run.prepare objectives evaluations settings clock random = .ok start) :
    Watching objectives settings [] start.books := by
  obtain ⟨-, begun, first, hBegun, hFirst, hRest⟩ := begun_of_prepare hPrepare
  obtain ⟨_, hSeeded⟩ := watching_invariant.seeds
    (watching_improving ((watching_of_begun hBegun).charge _)) hFirst hRest
  exact hSeeded

/-- **The top of the loop.** Nothing is pending there. -/
theorem watching_atTop {start top : Run α ρ} {children : List (Member α)}
    (h : Watching objectives settings [] start.books) (hTop : start.AtTop children top) :
    Watching objectives settings [] top.books :=
  hTop.invariant watching_invariant [] h

end Steps

-- ---------------------------------------------------------------------------
-- Whole runs
-- ---------------------------------------------------------------------------

section Whole

variable [OrderedScalar α] [FaithfulScalar α] [RandomSource ρ] {evaluations : Nat} {clock : Clock}
  {random : ρ} {report : Report α ρ}

/-- **The reason for stopping.** Whenever a run looks for one, its watch and its best member agree.
So a run stops for the target exactly when its best value reaches one; if it stops for the budget
this is used up; and if it stops for the time there is a limit and there was budget left. -/
theorem optimize_reason (hTotal : evaluations ≤ Word.largest)
    (hOptimize : optimize objectives evaluations settings clock random = .ok report) :
    (∃ start, Run.prepare objectives evaluations settings clock random = .ok start ∧
      ∀ children top, start.AtTop children top →
        (top.watch.best == top.best.fitness) = true) ∧
    (report.reason = .targetReached ↔
      ∃ t, settings.target = some t ∧ Scalar.reaches report.bestValue t = true) ∧
    (report.reason = .budgetExhausted → evaluations ≤ report.evaluations) ∧
    (report.reason = .timeLimit →
      settings.timeLimit.isSome = true ∧ report.evaluations < evaluations) := by
  obtain ⟨start, children, top, ended, hPrepare, hTop, hAsk, -, hBooks⟩ :=
    stops_of_optimize hTotal hOptimize
  have hStart := watching_prepare hPrepare
  have hWatching := watching_atTop hStart hTop
  have hBest : report.bestValue = top.best.fitness := congrArg (·.best.fitness) hBooks
  have hUsed : report.evaluations = top.budget.used := congrArg (·.budget.used) hBooks
  obtain ⟨most, hCharged⟩ := exists_charged hPrepare hTop
  have hGranted : top.budget.total = evaluations := hCharged.total_eq
  -- the reason of the report is the one found at the last top of the loop
  obtain ⟨hTarget, hBudget, hTime⟩ := reason_of_stopReason hAsk
  refine ⟨⟨start, hPrepare, fun _ _ hThere => (watching_atTop hStart hThere).agrees⟩, ?_, ?_, ?_⟩
  · rw [hTarget, hWatching.targetReached_iff, hBest]
  · intro hReason
    have hSpent : top.budget.total ≤ top.budget.used := of_decide_eq_true (hBudget hReason)
    rwa [hUsed, ← hGranted]
  · intro hReason
    obtain ⟨hDeadline, hOpen⟩ := hTime hReason
    have hLeft : ¬ top.budget.total ≤ top.budget.used := of_decide_eq_false hOpen
    refine ⟨hWatching.timed.symm.trans hDeadline, ?_⟩
    rw [hUsed, ← hGranted]
    exact Nat.lt_of_not_le hLeft

def aimedSettings : Settings ℚ := { briefSettings with target := some 1, timeLimit := some 100 }

/-- A run that has a target and a deadline. It reaches the target. -/
def aimedRun : Except Failure (Report ℚ Random.SplitMix) :=
  optimize rivals 20 aimedSettings (.ticking 1) ⟨7⟩

theorem optimize_reason_rivals : 20 ≤ Word.largest ∧
    ∃ report, aimedRun = .ok report ∧ report.reason = .targetReached ∧
      (∃ start, Run.prepare rivals 20 aimedSettings (.ticking 1) (⟨7⟩ : Random.SplitMix) =
          .ok start ∧
        ∀ children top, start.AtTop children top →
          (top.watch.best == top.best.fitness) = true) ∧
      (report.reason = .targetReached ↔
        ∃ t, aimedSettings.target = some t ∧ Scalar.reaches report.bestValue t = true) ∧
      (report.reason = .budgetExhausted → 20 ≤ report.evaluations) ∧
      (report.reason = .timeLimit →
        aimedSettings.timeLimit.isSome = true ∧ report.evaluations < 20) := by
  have hTotal : 20 ≤ Word.largest := by decide
  have hReason : aimedRun.toOption.map (·.reason) = some .targetReached := by decide +kernel
  refine ⟨hTotal, ?_⟩
  cases hRun : aimedRun with
  | error e =>
    rw [hRun] at hReason
    exact nomatch hReason
  | ok report =>
    rw [hRun] at hReason
    exact ⟨report, rfl, Option.some.inj hReason, optimize_reason hTotal hRun⟩

end Whole

end SwapSearch.Memetic
