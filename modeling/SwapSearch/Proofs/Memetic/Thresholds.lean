import SwapSearch.Proofs.Memetic.Consulted
import SwapSearch.Proofs.Memetic.Snapshots
import SwapSearch.Proofs.Scalar.Extended
import SwapSearch.Proofs.WeightedSum.Single

/-!
# SwapSearch — thresholds that are met and missed

A charge that finds a finite best value leaves the record up to date: if a threshold has
been crossed, the last snapshot lies in the block of the usage. But a watch begins at
negative infinity, and a threshold that is crossed before it knows better waits for the
next charge. There need not be one. With one objective the watch hears of the first seed
when its local search begins, after the batch has been charged; with several it hears of
the first member only when the search is over and the result has been evaluated. A run that
stops there has no snapshot, whatever it has used. All others have one in the last block.

## Results

* `upToDate_charge`      — a charge that finds a finite value leaves the record up to date.
* `Tracked.step`         — so every charge does, once a finite value is known.
* `optimize_thresholds`  — which runs have a snapshot in the last block.
* `threshold_missed`     — a run that has used its budget and has no snapshot.
-/

namespace SwapSearch.Memetic

open Relation OrderedScalar FaithfulScalar ExtendedScalar

-- ---------------------------------------------------------------------------
-- Charges and thresholds
-- ---------------------------------------------------------------------------

section Tallies

variable {α : Type} [Scalar α] {s count : Nat} {t t' : Tally α}

/-- No threshold has been reached, or the last snapshot lies in the block of the usage. -/
def UpToDate (s : Nat) (t : Tally α) : Prop :=
  t.budget.used < s ∨ ∃ last, t.watch.recorder.taken.head? = some last ∧
    last.evaluations / s = t.budget.used / s

/-- Below the next threshold the last snapshot lies in the block of the usage. -/
theorem upToDate_of_lt (hPeriod : 0 < s) (h : Recorded s t)
    (hBelow : t.budget.used < t.watch.recorder.nextAt) : UpToDate s t := by
  -- the next threshold is the end of the block of the last snapshot, or the first of all
  have hNext := h.regular.nextAt
  have hWithin := h.regular.within
  unfold UpToDate
  cases hTaken : t.watch.recorder.taken with
  | nil =>
    rw [hTaken] at hNext
    exact Or.inl (hBelow.trans_eq hNext)
  | cons last rest =>
    rw [hTaken] at hNext hWithin
    have hLast := hWithin last (List.mem_cons_self ..)
    have hLess : t.budget.used < (last.evaluations / s + 1) * s :=
      (hBelow.trans_eq hNext).trans_le (Nat.min_le_left ..)
    refine Or.inr ⟨last, rfl, Nat.le_antisymm (Nat.div_le_div_right hLast) ?_⟩
    exact Nat.le_of_lt_succ ((Nat.div_lt_iff_lt_mul hPeriod).mpr hLess)

/-- **A charge that finds a finite value** leaves the record up to date. -/
theorem upToDate_charge [OrderedScalar α] (hPeriod : 0 < s) (h : Recorded s t) {units : Nat}
    (hCharge : t.Charges units t') (hFinite : Scalar.isFinite t.watch.best = true) :
    UpToDate s t' := by
  have hAfter := h.charge hPeriod hCharge
  obtain ⟨recorder, hObserve, rfl⟩ := Tally.exists_of_charges hCharge
  rcases Recorder.observe_cases h.regular.every hObserve with ⟨rfl, hBelow | hNot⟩ | ⟨-, -, rfl⟩
  · exact upToDate_of_lt hPeriod hAfter hBelow
  · rw [hFinite] at hNot
    exact nomatch hNot
  · exact Or.inr ⟨_, rfl, rfl⟩

/-- A finite value has been known since `count` charges had been made. If none was made since then
there is no snapshot; otherwise the record is up to date. -/
structure Tracked (s count : Nat) (t : Tally α) : Prop where
  recorded : Recorded s t
  known : ∃ a, Scalar.isFinite a = true ∧ a ≤ t.watch.best
  record : t.budget.charges.length = count ∧ t.watch.recorder.taken = [] ∨
    count < t.budget.charges.length ∧ (Scalar.isFinite t.watch.best = true → UpToDate s t)

variable [OrderedScalar α] [FaithfulScalar α] [ExtendedScalar α]

/-- The mean of a single finite value is finite. -/
theorem isFinite_mean_singleton {a : α} (ha : Scalar.isFinite a = true) :
    Scalar.isFinite (Scalar.mean [a]) = true :=
  have ⟨hBelow, hAbove⟩ := beq_iff_le_le.mp (FaithfulScalar.mean_singleton ha)
  isFinite_of_between ha ha hAbove hBelow

omit [FaithfulScalar α] in
/-- What lies above a finite value is not negative infinity. -/
theorem not_le_negInf {a b : α} (ha : Scalar.isFinite a = true) (hab : a ≤ b) :
    ¬ b ≤ Scalar.negInf :=
  fun h => not_le_of_lt (negInf_lt ha) (le_trans hab h)

/-- **Every change of the tally keeps track.** -/
theorem Tracked.step (hPeriod : 0 < s) (h : Tracked s count t) (hStep : Tally.Step t t') :
    Tracked s count t' := by
  have hRecorded := h.recorded.step hPeriod hStep
  obtain ⟨a, hFinite, hLe⟩ := h.known
  -- a look, a value that is heard of, or a charge
  cases hStep with
  | look =>
    obtain ⟨looks, -, hChanges⟩ := t.watch.deadlinePassed_changes
    rw [hChanges] at hRecorded ⊢
    exact ⟨hRecorded, h.known, h.record⟩
  | raise value =>
    -- the best only grows, so a finite end has been finite since
    have hLarger : t.watch.best ≤ Scalar.larger t.watch.best value :=
      Scalar.le_larger_left h.recorded.number
    refine ⟨hRecorded, ⟨a, hFinite, le_trans hLe hLarger⟩, h.record.imp_right fun hSince => ?_⟩
    exact ⟨hSince.1, fun hAfter => hSince.2 (isFinite_of_between hFinite hAfter hLe hLarger)⟩
  | charge hCharge =>
    -- a charge observes the usage it leads to
    have hCurrent := upToDate_charge hPeriod h.recorded hCharge
    obtain ⟨recorder, -, rfl⟩ := Tally.exists_of_charges hCharge
    refine ⟨hRecorded, ⟨a, hFinite, hLe⟩, Or.inr ⟨?_, hCurrent⟩⟩
    have hMost : count ≤ t.budget.charges.length :=
      h.record.elim (fun hNone => hNone.1.ge) fun hSince => hSince.1.le
    exact Nat.lt_succ_of_le hMost

theorem Tracked.steps (hPeriod : 0 < s) (h : Tracked s count t) (hSteps : Tally.Steps t t') :
    Tracked s count t' := by
  induction hSteps with
  | refl => exact h
  | tail _ hLast ih => exact ih.step hPeriod hLast

/-- A watch that has been at negative infinity hears of a finite value. -/
theorem Recorded.tracked (h : Recorded s t) (hBest : t.watch.best = Scalar.negInf) {value : α}
    (hFinite : Scalar.isFinite value = true) :
    Tracked s t.budget.charges.length { t with watch := t.watch.raise value } := by
  have hAbove : Scalar.negInf ≤ value := le_of_lt (negInf_lt hFinite)
  have hRaised : (t.watch.raise value).best = value := by
    show Scalar.larger t.watch.best value = value
    rw [hBest]
    exact Scalar.larger_of_le hAbove
  refine ⟨h.raise value, ⟨value, hFinite, hRaised.symm ▸ le_self_of_isFinite hFinite⟩,
    Or.inl ⟨rfl, ?_⟩⟩
  -- whatever was taken before had a finite value
  refine List.eq_nil_iff_forall_not_mem.mpr fun x hx => ?_
  have hBelow := h.bounded x hx
  rw [hBest] at hBelow
  exact not_le_negInf (h.finite x hx) (le_self_of_isFinite (h.finite x hx)) hBelow

omit [OrderedScalar α] [FaithfulScalar α] [ExtendedScalar α] in
theorem Tally.Steps.charges_le (h : Tally.Steps t t') :
    t.budget.charges.length ≤ t'.budget.charges.length := by
  induction h with
  | refl => exact Nat.le_refl _
  | tail _ hLast ih =>
    refine ih.trans ?_
    cases hLast with
    | look => exact Nat.le_refl _
    | raise => exact Nat.le_refl _
    | charge hCharge =>
      obtain ⟨recorder, -, rfl⟩ := Tally.exists_of_charges hCharge
      exact Nat.le_succ _

end Tallies

-- ---------------------------------------------------------------------------
-- Runs
-- ---------------------------------------------------------------------------

namespace Run

variable {α ρ : Type} [Scalar α] [RandomSource ρ] {s count : Nat} {run run' : Run α ρ}
  {solution : Permutation} {vector : List α} {i : Improvement α} {m : Member α}

/-- With several objectives every result is evaluated, and that is charged. -/
theorem Improved.charged (h : run.Improved solution vector i run')
    (hMany : run.objectives.length ≠ 1) :
    run.improved.length < run'.improved.length ∧
      run.budget.charges.length < run'.budget.charges.length := by
  obtain ⟨sum, spent, -, hSteps, hLast⟩ := h.tally
  rw [if_neg hMany] at hLast
  have hSpent := Tally.Steps.charges_le ((Tally.steps_hear run.tally _).trans hSteps)
  have hBudget : run'.budget = spent.budget.charge 1 := hLast.1
  constructor
  · rw [h.changes]
    exact Nat.lt_succ_self _
  · rw [hBudget]
    exact Nat.lt_succ_of_le hSpent

/-- So an action that improves a solution charges something, and the others charge nothing. -/
theorem Action.charged (h : Action run run') (hMany : run.objectives.length ≠ 1) :
    run'.improved = run.improved ∧ run'.budget = run.budget ∨
      run.improved.length < run'.improved.length ∧
        run.budget.charges.length < run'.budget.charges.length := by
  rcases h.improves_or_not with ⟨hImproved, -, hBudget, -⟩ | ⟨_, _, i, ready, hKnows, hImproved⟩
  · exact Or.inl ⟨hImproved, hBudget⟩
  · have hObjectives : ready.objectives = run.objectives := by rw [hKnows.changes]
    have hBefore : ready.improved = run.improved := by rw [hKnows.changes]
    obtain ⟨hMore, hCharged⟩ := hImproved.charged (hObjectives ▸ hMany)
    have hKept : run.budget.charges.length ≤ ready.budget.charges.length :=
      hKnows.steps.charges_le
    exact Or.inr ⟨hBefore ▸ hMore, hKept.trans_lt hCharged⟩

/-- The best member stays or is one that was improved. -/
theorem Action.best (h : Action run run') :
    run'.best = run.best ∨ ∃ i ∈ run'.improved, run'.best = i.member := by
  -- only an improvement is ever compared with the best
  cases h with
  | look =>
    rw [run.stopReason_snd]
    exact Or.inl rfl
  | improve _ hImprove =>
    obtain ⟨i, -, hImproved⟩ := improved_of_improve hImprove
    rw [hImproved.changes]
    exact Or.inl rfl
  | develop hEvaluate hImprove =>
    obtain ⟨i, -, hImproved⟩ := improved_of_improve hImprove
    obtain ⟨-, -, hChanges⟩ := exists_of_evaluate hEvaluate
    rw [hImproved.changes, hChanges]
    exact Or.inl rfl
  | @compare i hi =>
    unfold updateBest
    split
    · exact Or.inr ⟨i, hi, rfl⟩
    · exact Or.inl rfl
  | offer _ => exact Or.inl rfl
  | replace _ _ => exact Or.inl rfl
  | reseed => exact Or.inl rfl
  | steer => exact Or.inl rfl

/-- A run whose watch has known a finite value since `count` charges had been made. With several
objectives that was when the first solution had been improved. -/
structure Followed (s count : Nat) (run : Run α ρ) : Prop where
  tracked : Tracked s count run.tally
  best : run.best.fitness = Scalar.negInf ∨ ∃ i ∈ run.improved, run.best = i.member
  several : run.objectives.length ≠ 1 →
    run.improved.length = 1 ∧ run.budget.charges.length = count ∨
      1 < run.improved.length ∧ count < run.budget.charges.length

variable [OrderedScalar α] [FaithfulScalar α] [ExtendedScalar α]

/-- **Every action is followed.** -/
theorem Followed.action (hPeriod : 0 < s) (h : run.Followed s count) (hAction : Action run run') :
    run'.Followed s count := by
  refine ⟨h.tracked.steps hPeriod hAction.steps, ?_, fun hMany => ?_⟩
  · rcases hAction.best with hSame | hNew
    · rw [hSame]
      exact h.best.imp_right fun ⟨i, hi, hBest⟩ => ⟨i, hAction.improved_subset hi, hBest⟩
    · exact Or.inr hNew
  · rw [hAction.fixed.1] at hMany
    rcases hAction.charged hMany with ⟨hImproved, hBudget⟩ | ⟨hImproved, hBudget⟩
    · rw [hImproved, hBudget]
      exact h.several hMany
    · refine Or.inr ?_
      -- the first improvement brings the first charge after the opening, and it stays ahead
      rcases h.several hMany with ⟨hOne, hCount⟩ | ⟨hMore, hCount⟩
      · exact ⟨hOne ▸ hImproved, hCount ▸ hBudget⟩
      · exact ⟨hMore.trans hImproved, hCount.trans hBudget⟩

theorem Followed.fills (hPeriod : 0 < s) (h : run.Followed s count) (hFills : Fills run run') :
    run'.Followed s count := by
  induction hFills with
  | refl => exact h
  | tail _ hLast ih =>
    rcases hLast with hAction | hJoins
    · exact ih.action hPeriod hAction
    · obtain ⟨-⟩ := hJoins
      exact ⟨ih.tracked, ih.best, ih.several⟩

/-- A run that has charged its first generation, and whose watch has heard nothing yet. -/
structure Fresh (s : Nat) (run : Run α ρ) : Prop where
  recorded : Recorded s run.tally
  heard : run.watch.best = Scalar.negInf
  follows : run.watch.followsSearch = (run.objectives.length == 1)
  best : run.best.fitness = Scalar.negInf
  improved : run.improved = []

omit [ExtendedScalar α] in
/-- A watch that does not follow searches hears nothing while a solution is improved. -/
theorem Fresh.heard_after (h : run.Fresh s) (hMany : run.objectives.length ≠ 1)
    (hImprove : run.improve solution vector = .ok (m, run')) :
    run'.watch.best = Scalar.negInf := by
  obtain ⟨i, _, _, -, -, -, hImproves⟩ := improves_of_improve hImprove
  obtain ⟨spent, outlook, -, hHears, hBooks⟩ := hImproves.books
  have hOutlook : run'.watch.outlook = run.watch.outlook.hear i.outcome.value :=
    (congrArg Books.outlook hBooks).trans hHears.eq_hear
  -- only with one objective do the searches speak to the watch
  have hDeaf : run.watch.outlook.followsSearch = false :=
    h.follows.trans (beq_eq_false_iff_ne.mpr hMany)
  unfold Outlook.hear at hOutlook
  rw [hDeaf] at hOutlook
  exact (congrArg Outlook.best hOutlook).trans h.heard

/-- With one objective the watch hears of the first seed when its local search begins. -/
theorem Fresh.tracked_single (hPeriod : 0 < s) (h : run.Fresh s)
    (hOne : run.objectives.length = 1) (hLength : vector.length = run.objectives.length)
    (hImproved : run.Improved solution vector i run') :
    Tracked s run.budget.charges.length run'.tally := by
  obtain ⟨sum, spent, hSum, hSteps, hLast⟩ := hImproved.tally
  rw [if_pos hOne] at hLast
  obtain ⟨o, hSingle⟩ := List.length_eq_one_iff.mp hOne
  obtain ⟨v, rfl⟩ := List.length_eq_one_iff.mp (hLength.trans hOne)
  -- one objective is not weighted, so the walk starts at the finite value that was evaluated
  have hWeights : run.drawWeights.1 = [1] := by
    unfold drawWeights
    rw [if_pos hOne]
  rw [hSingle, hWeights] at hSum
  have hStart := isFinite_weighted (hImproved.start v (List.mem_singleton_self v))
  rw [← WeightedSum.combine_weighted hSum] at hStart
  -- that value is heard of before the walk does anything else
  have hHeard : run.tally.hear (sum.combine [v]) =
      { run.tally with watch := run.watch.raise (sum.combine [v]) } := by
    have hFollows : run.watch.followsSearch = true := h.follows.trans (beq_iff_eq.mpr hOne)
    show (⟨_, if run.watch.followsSearch then _ else _⟩ : Tally α) = _
    rw [if_pos hFollows]
    rfl
  rw [hHeard] at hSteps
  exact hLast ▸ (h.recorded.tracked h.heard hStart).steps hPeriod hSteps

/-- **The first member.** Once it has been compared with the best there is a finite value: with one
objective since the batch was charged, with several since just now. -/
theorem Fresh.followed (hPeriod : 0 < s) (h : run.Fresh s)
    (hLength : vector.length = run.objectives.length)
    (hImprove : run.improve solution vector = .ok (m, run'))
    (hFinite : Scalar.isFinite m.fitness = true) :
    ∃ count, (run.objectives.length = 1 → count = run.budget.charges.length) ∧
      (run'.updateBest m).Followed s count := by
  obtain ⟨i, rfl, hImproved⟩ := improved_of_improve hImprove
  have hBefore : run'.best = run.best := by rw [hImproved.changes]
  have hNew : run'.improved = [i] := by rw [hImproved.changes, h.improved]
  have hObjectives : run'.objectives = run.objectives := by rw [hImproved.changes]
  have hLess : run'.best.fitness < i.member.fitness := by
    rw [hBefore, h.best]
    exact negInf_lt hFinite
  -- the first finite fitness beats the stand-in
  have hUpdated : run'.updateBest i.member = { run' with
      best := i.member
      watch := run'.watch.raise i.member.fitness
      journal := .newBest i.member.fitness run'.budget.used :: run'.journal } := if_pos hLess
  have hMember : i ∈ run'.improved := hNew ▸ List.mem_singleton_self i
  rw [hUpdated]
  by_cases hOne : run.objectives.length = 1
  · -- known since the search began, and raising the watch changes no count
    have hTracked := h.tracked_single hPeriod hOne hLength hImproved
    exact ⟨run.budget.charges.length, fun _ => rfl,
      hTracked.steps hPeriod (.single (.raise i.member.fitness)), Or.inr ⟨i, hMember, rfl⟩,
      fun hMany => absurd (hObjectives ▸ hOne) hMany⟩
  · -- deaf while searching, so nothing was recorded until now
    have hRecorded := h.recorded.steps hPeriod hImproved.steps
    refine ⟨run'.budget.charges.length, fun hSame => absurd hSame hOne,
      hRecorded.tracked (h.heard_after hOne hImprove) hFinite, Or.inr ⟨i, hMember, rfl⟩,
      fun _ => Or.inl ⟨?_, rfl⟩⟩
    rw [hNew]
    rfl

end Run

variable {α ρ : Type} [Scalar α] [OrderedScalar α] [FaithfulScalar α] [ExtendedScalar α]
  [RandomSource ρ] {objectives : List (Objective α)} {evaluations : Nat} {settings : Settings α}
  {clock : Clock} {random : ρ} {report : Report α ρ} {s : Nat}

omit [ExtendedScalar α] in
/-- The first generation is charged before the watch has heard anything. -/
theorem Prepared.fresh {begun opened start : Run α ρ} {seeds : List (Member α)}
    (hEvery : settings.snapshotEvery = some s) (hPeriod : 0 < s)
    (h : Prepared objectives evaluations settings clock random begun seeds opened start) :
    opened.Fresh s ∧ opened.objectives = objectives ∧ opened.budget.charges.length = 1 := by
  have hOpened := Run.opened_of_openBatch h.open_eq
  have hBegun : begun.tally = ⟨.grant evaluations, .begin settings objectives.length clock⟩ :=
    h.started.tally_eq
  have hRecorded : Recorded s begun.tally := hBegun ▸ recorded_begin hEvery ..
  obtain ⟨-, -, hBooks⟩ := begun_of_begin h.begin_eq
  -- the charge for the batch comes to the budget and the recorder
  obtain ⟨recorder, -, hTally⟩ := Tally.exists_of_charges hOpened.tally
  have hBudget : opened.budget = begun.budget.charge begun.settings.populationSize :=
    congrArg Tally.budget hTally
  have hWatch : opened.watch = { begun.watch with recorder } := congrArg Tally.watch hTally
  have hObjectives : opened.objectives = objectives := h.shape.objectives_eq
  have hCharges : begun.budget.charges = [] := congrArg (·.budget.charges) hBegun
  refine ⟨⟨hRecorded.charge hPeriod hOpened.tally, ?_, ?_, ?_, ?_⟩, hObjectives, ?_⟩
  · rw [hWatch]
    exact hBooks.heard
  · rw [hWatch, hObjectives]
    exact hBooks.follows
  · rw [hOpened.changes]
    exact hBooks.best
  · rw [hOpened.changes]
    exact h.started.improved
  · rw [hBudget]
    exact congrArg (·.length + 1) hCharges

/-- With one objective the fitness of a member is its only value, and that is finite. -/
theorem fitness_finite (hOne : objectives.length = 1)
    (hOptimize : optimize objectives evaluations settings clock random = .ok report) :
    ∀ i ∈ report.run.improved, Scalar.isFinite i.member.fitness = true := by
  obtain ⟨begun, seeds, opened, start, hPrepared, hActs⟩ := prepared_of_optimize hOptimize
  have hShape := (hPrepared.shape.fills hPrepared.admitted.fills).acts hActs
  intro i hi
  have hMember := hShape.improved i hi
  obtain ⟨v, hVector⟩ := List.length_eq_one_iff.mp (hMember.length.trans hOne)
  rw [hShape.fitness i hi, hVector]
  exact isFinite_mean_singleton (hMember.finite v (hVector ▸ List.mem_singleton_self v))

/-- A whole run is followed from its first member on. -/
theorem followed_of_optimize (hEvery : settings.snapshotEvery = some s)
    (hFinite : ∀ i ∈ report.run.improved, Scalar.isFinite i.member.fitness = true)
    (hOptimize : optimize objectives evaluations settings clock random = .ok report) :
    ∃ count, (objectives.length = 1 → count = 1) ∧ report.run.objectives = objectives ∧
      report.run.Followed s count := by
  have hPeriod := period_pos hEvery hOptimize
  obtain ⟨begun, seeds, opened, start, hPrepared, hActs⟩ := prepared_of_optimize hOptimize
  -- the first seed has made the watch hear of a finite value before anything was recorded
  obtain ⟨hFresh, hObjectives, hCharges⟩ := hPrepared.fresh hEvery hPeriod
  have hLength := (Run.opened_of_openBatch hPrepared.open_eq).length_eq
  have hTwo := (checked_of_valid hPrepared.started.valid).population
  rw [hPrepared.started.settings_eq] at hLength
  have hSome : seeds ≠ [] := List.ne_nil_of_length_pos (by omega)
  obtain ⟨admitted, hEnters, hRest⟩ :=
    hPrepared.admitted.first _ (List.head?_eq_some_head hSome)
  obtain @⟨improved, _, i, hVector, hImprove, hi, hJoins⟩ := hEnters
  have hCompare := Run.Action.compare hi
  have hOffer : Run.Action _ ((improved.updateBest i.member).offerElite i.member) :=
    .offer (hCompare.improved_subset hi)
  -- what comes after it is a sequence of actions, which are followed
  have hEntered : Run.Fills (improved.updateBest i.member) admitted :=
    .tail (.single (Or.inl hOffer)) (Or.inr hJoins)
  have hLater : Run.Fills (improved.updateBest i.member) report.run :=
    (hEntered.trans hRest).trans (Run.fills_of_acts hActs)
  have hThere := hLater.improved_subset (hCompare.improved_subset hi)
  obtain ⟨count, hCount, hFollowed⟩ :=
    hFresh.followed hPeriod (evaluateAll_length hVector) hImprove (hFinite i hThere)
  rw [hObjectives, hCharges] at hCount
  have hKept : (improved.updateBest i.member).objectives = objectives := by
    obtain ⟨_, -, hImproved⟩  := Run.improved_of_improve hImprove
    rw [hCompare.fixed.1, hImproved.changes]
    exact hObjectives
  exact ⟨count, hCount, hLater.fixed.1.trans hKept, hFollowed.fills hPeriod hLater⟩

/-- The run has ended before it could charge anything more after the first finite value: with one
objective nothing but the batch was charged, with several only one solution was improved. -/
def Report.Curtailed (objectives : List (Objective α)) (report : Report α ρ) : Prop :=
  if objectives.length = 1 then report.run.budget.charges.length = 1
  else report.run.improved.length = 1

/-- **Thresholds.** If a threshold has been crossed, the last snapshot of a run lies in the block of
its usage, unless the run was curtailed; then there is none. With several objectives no mean of
finite values may have overflowed. -/
theorem optimize_thresholds (hEvery : settings.snapshotEvery = some s)
    (hMeans : objectives.length ≠ 1 →
      ∀ i ∈ report.run.improved, Scalar.isFinite i.member.fitness = true)
    (hReached : s ≤ report.evaluations)
    (hOptimize : optimize objectives evaluations settings clock random = .ok report) :
    report.Curtailed objectives ∧ report.snapshots = [] ∨
      ¬ report.Curtailed objectives ∧ ∃ last, report.snapshots.getLast? = some last ∧
        last.evaluations / s = report.evaluations / s := by
  -- with one objective a mean is the value itself, which was checked
  have hFinite : ∀ i ∈ report.run.improved, Scalar.isFinite i.member.fitness = true := by
    by_cases hOne : objectives.length = 1
    · exact fitness_finite hOne hOptimize
    · exact hMeans hOne
  obtain ⟨count, hCount, hObjectives, hFollowed⟩ := followed_of_optimize hEvery hFinite hOptimize
  obtain ⟨a, ha, hKnown⟩ := hFollowed.tracked.known
  have hAhead : report.run.watch.best ≤ report.bestValue :=
    (beq_iff_le_le.mp (best_beq_of_optimize hOptimize)).1
  -- the best value is finite: it is at least a finite one, and belongs to an improvement
  have hEnd : Scalar.isFinite report.bestValue = true := by
    rcases hFollowed.best with hNone | ⟨i, hi, hBest⟩
    · have hBelow : report.run.watch.best ≤ Scalar.negInf := hAhead.trans_eq hNone
      exact absurd hBelow (not_le_negInf ha hKnown)
    · have hSame : report.bestValue = i.member.fitness := congrArg Member.fitness hBest
      exact hSame ▸ hFinite i hi
  -- a run is curtailed if there was no charge after those the best was unknown in
  have hCurtailed : report.Curtailed objectives ↔ report.run.budget.charges.length = count := by
    unfold Report.Curtailed
    split
    · next hOne => rw [hCount hOne]
    · next hMany =>
      have hSeveral := hFollowed.several (hObjectives ▸ hMany)
      constructor <;> intro <;> omega
  rcases hFollowed.tracked.record with ⟨hSame, hNone⟩ | ⟨hMore, hCurrent⟩
  · exact Or.inl ⟨hCurtailed.mpr hSame, congrArg List.reverse hNone⟩
  · refine Or.inr ⟨fun h => hMore.ne' (hCurtailed.mp h), ?_⟩
    rcases hCurrent (isFinite_of_between ha hEnd hKnown hAhead) with hBelow | ⟨last, hLast, hBlock⟩
    · exact absurd hReached (Nat.not_le.mpr hBelow)
    · exact ⟨last, List.getLast?_reverse.trans hLast, hBlock⟩

/-- An objective over two positions that makes no difference between solutions. -/
def level : List (Objective Float) := [.ofEvaluation 2 fun _ => .ok 0]

/-- Two seeds are evaluated, and every unit is to be recorded. -/
def levelRun (evaluations : Nat) : Except Failure (Report Float Random.SplitMix) :=
  optimize level evaluations { calmSettings with snapshotEvery := some 1 } (.ticking 1) ⟨7⟩

/-- With three units there is one for a local search, and the last snapshot is up to date. -/
theorem optimize_thresholds_level : ∃ report, levelRun 3 = .ok report ∧
    (∀ i ∈ report.run.improved, Scalar.isFinite i.member.fitness = true) ∧
    1 ≤ report.evaluations ∧ ¬ report.Curtailed level ∧
    ∃ last, report.snapshots.getLast? = some last ∧
      last.evaluations / 1 = report.evaluations / 1 := by
  have hEnd : (levelRun 3).toOption.map (fun report =>
      (report.evaluations, report.snapshots.map (·.evaluations),
        report.run.improved.all fun i => Scalar.isFinite i.member.fitness)) =
      some (3, [3], true) := by decide +kernel
  obtain ⟨report, hRun, hEnd⟩ := exists_of_toOption_map hEnd
  obtain ⟨hUsed, hRest⟩ := Prod.mk.inj hEnd
  obtain ⟨hTaken, hAll⟩ := Prod.mk.inj hRest
  have hFinite := List.all_eq_true.mp hAll
  have hReached : 1 ≤ report.evaluations := hUsed ▸ by decide
  refine ⟨report, hRun, hFinite, hReached, ?_⟩
  rcases optimize_thresholds rfl (fun _ => hFinite) hReached hRun with ⟨-, hNone⟩ | hSome
  · rw [hNone] at hTaken
    exact nomatch hTaken
  · exact hSome

/-- With two units the budget is used up by the batch. It has crossed two thresholds, and there is
no snapshot. -/
theorem threshold_missed : ∃ report, levelRun 2 = .ok report ∧ 1 ≤ report.evaluations ∧
    ¬ (report.snapshots ≠ [] ∧ ∃ last, report.snapshots.getLast? = some last ∧
      last.evaluations / 1 = report.evaluations / 1) := by
  have hEnd : (levelRun 2).toOption.map (fun report =>
      (report.evaluations, report.snapshots.map (·.evaluations))) = some (2, []) := by
    decide +kernel
  obtain ⟨report, hRun, hEnd⟩ := exists_of_toOption_map hEnd
  obtain ⟨hUsed, hTaken⟩ := Prod.mk.inj hEnd
  exact ⟨report, hRun, hUsed ▸ by decide, fun h => h.1 (List.map_eq_nil_iff.mp hTaken)⟩

end SwapSearch.Memetic
