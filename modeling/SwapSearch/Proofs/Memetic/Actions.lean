import SwapSearch.Proofs.Memetic.Loop
import SwapSearch.Proofs.WeightedSum.Failures

/-!
# SwapSearch — the actions of a run

The books of a run leave out what only steers it, and with that the population, the clock
and the record. Here a run is taken as a whole. Whatever it does once the population is
filled is a sequence of *actions*, and what every action preserves holds throughout. None
of them changes the number of members.

The *tally* of a run is its budget with its watch. It changes in small steps also inside
local searches, and what concerns the clock or the record is said of these steps.

## Results

* `confined_search`         — how a local search on a weighted sum fails, and what it consults.
* `improved_of_improve`     — what improving a solution changes.
* `Action.fixed`            — what no action changes.
* `Action.improves_or_not`  — what an action improves, evaluates and charges.
-/

namespace SwapSearch.Memetic

open Relation Confined

-- ---------------------------------------------------------------------------
-- The tally
-- ---------------------------------------------------------------------------

/-- A budget, and the watch that hears of its charges. -/
structure Tally (α : Type) where
  budget : Budget
  watch : Watch α

namespace Tally

variable {α : Type} [Scalar α]

/-- A local search reports a value. -/
def hear (t : Tally α) (value : α) : Tally α :=
  { t with watch := Monitor.onBest t.watch value }

/-- A charge is made and reported. -/
def Charges (t : Tally α) (units : Nat) (t' : Tally α) : Prop :=
  t'.budget = t.budget.charge units ∧ Monitor.onCharge t.watch t'.budget = .ok t'.watch

/-- A charge changes the usage and the record. -/
theorem exists_of_charges {t t' : Tally α} {units : Nat} (h : t.Charges units t') :
    ∃ recorder, t.watch.recorder.observe (t.budget.charge units).used t.watch.best =
        .ok recorder ∧
      t' = ⟨t.budget.charge units, { t.watch with recorder }⟩ := by
  obtain ⟨hBudget, hWatch⟩ := h
  obtain ⟨recorder, hObserve, hWatch⟩ := exists_of_bind_ok hWatch
  rw [hBudget] at hObserve
  obtain ⟨budget, watch⟩ := t'
  obtain rfl : budget = t.budget.charge units := hBudget
  obtain rfl : { t.watch with recorder } = watch := Except.ok.inj hWatch
  exact ⟨recorder, hObserve, rfl⟩

/-- One change of the tally. -/
inductive Step (t : Tally α) : Tally α → Prop
  | look : Step t { t with watch := t.watch.deadlinePassed.2 }
  | raise (value : α) : Step t { t with watch := t.watch.raise value }
  | charge {units : Nat} {t' : Tally α} (h : t.Charges units t') : Step t t'

/-- Any number of changes. -/
abbrev Steps : Tally α → Tally α → Prop := ReflTransGen Step

/-- A watch that does not follow searches makes nothing of what it hears. -/
theorem steps_hear (t : Tally α) (value : α) : Steps t (t.hear value) := by
  have hHear : (Monitor.onBest t.watch value : Watch α) =
      if t.watch.followsSearch then t.watch.raise value else t.watch := rfl
  unfold hear
  rw [hHear]
  split
  · exact .single (.raise value)
  · exact .refl

theorem steps_poll (t : Tally α) : Steps t { t with watch := (Monitor.poll t.watch).2 } := by
  have hPoll : (Monitor.poll t.watch : Bool × Watch α) =
      if t.watch.targetReached then (true, t.watch) else t.watch.deadlinePassed := rfl
  rw [hPoll]
  split
  · exact .refl
  · exact .single .look

/-- The tally while a search goes on. -/
theorem steps_of_search {s s' : Tabu.Standing α (Watch α)} (h : Tabu.Standing.Steps s s') :
    Steps ⟨s.budget, s.monitor⟩ ⟨s'.budget, s'.monitor⟩ := by
  induction h with
  | refl => exact .refl
  | @tail before _ _ hLast ih =>
    cases hLast with
    | poll => exact ih.trans (steps_poll _)
    | @record value _ => exact ih.trans (steps_hear ⟨before.budget, before.monitor⟩ value)
    | scan _ _ _ hCharge => exact ih.tail (.charge ⟨rfl, hCharge⟩)

end Tally

/-- A watch fails with faults only, and only if the record does. -/
theorem confined_onCharge {α : Type} [Scalar α] {E : Breach → Prop}
    (hFault : ∀ cause, cause.isFault = true → E cause) (w : Watch α) (b : Budget) :
    Confined E (Monitor.onCharge w b) fun _ => True := by
  have hThreshold (every used : Nat) :
      Confined E (Recorder.thresholdAbove every used) fun _ => True := by
    unfold Recorder.thresholdAbove
    split
    · exact fail (hFault _ rfl)
    · exact (Tabu.confined_checked hFault _).bind fun _ _ => ok trivial
  have hObserve : Confined E (w.recorder.observe b.used w.best) fun _ => True := by
    unfold Recorder.observe Recorder.advance
    split
    · split
      · exact ok trivial
      · exact (hThreshold _ _).bind fun _ _ => ok trivial
    · exact ok trivial
  exact hObserve.bind fun _ _ => ok trivial

namespace Run

variable {α ρ : Type} [Scalar α] {run run' : Run α ρ}

def tally (run : Run α ρ) : Tally α := ⟨run.budget, run.watch⟩

theorem stopReason_snd (run : Run α ρ) :
    run.stopReason.2 = { run with watch := run.stopReason.2.watch } := by
  unfold stopReason
  split
  · rfl
  · split <;> rfl

theorem steps_stopReason (run : Run α ρ) : Tally.Steps run.tally run.stopReason.2.tally := by
  unfold stopReason
  split
  · exact .refl
  · split
    · exact .refl
    · exact .single .look

theorem exists_of_charge {units : Nat} (h : run.charge units = .ok run') :
    run.tally.Charges units run'.tally ∧
      run' = { run with budget := run'.budget, watch := run'.watch } := by
  obtain ⟨watch, hWatch, h⟩ := exists_of_bind_ok h
  obtain rfl := Except.ok.inj h
  exact ⟨⟨rfl, hWatch⟩, rfl⟩

theorem exists_of_evaluate {solution : Permutation} {vector : List α}
    (h : run.evaluate solution = .ok (vector, run')) :
    evaluateAll run.objectives solution = .ok vector ∧ run.tally.Charges 1 run'.tally ∧
      run' = { run with
        budget := run'.budget
        watch := run'.watch
        consulted := solution.values :: run.consulted } := by
  obtain ⟨vector', hVector, h⟩ := exists_of_bind_ok h
  obtain ⟨charged, hCharge, h⟩ := exists_of_bind_ok h
  obtain ⟨rfl, rfl⟩ := Prod.mk.inj (Except.ok.inj h)
  obtain ⟨hCharges, hCharged⟩ := exists_of_charge hCharge
  exact ⟨hVector, hCharges, hCharged⟩

-- ---------------------------------------------------------------------------
-- Improving
-- ---------------------------------------------------------------------------

section Improving

variable [RandomSource ρ] {solution : Permutation} {vector : List α}

/-- A local search on a weighted sum of the objectives, from a start of the right size, fails with a
fault or as one of the objectives does. It evaluates in full at its start only. -/
theorem confined_search {objectives : List (Objective α)} {weights : List α} {value : α}
    {limit : Nat} {context : Tabu.Context (WeightedSum α) (Watch α) ρ} (search : Tabu.Search α)
    (hSum : WeightedSum.ofObjectives objectives weights = .ok context.landscape)
    (hSize : solution.size = Landscape.size context.landscape) :
    Confined (Foreseen objectives) (search.improve solution value limit context) fun found =>
      ∀ values ∈ found.2.landscape.consulted, values = solution.values := by
  obtain ⟨hSummands, hNone⟩ := WeightedSum.mem_of_ofObjectives hSum
  have hCharge (m : Watch α) (b : Budget) :
      Confined (Foreseen objectives) (Monitor.onCharge m b) fun _ => True :=
    confined_onCharge (fun _ => Or.inl) m b
  have hTame := WeightedSum.tame solution.values hCharge
  refine (Tabu.confined_improve hTame limit hSize fun table =>
    WeightedSum.confined_scan_first hSummands hNone solution.values value table).imp ?_
  rintro found (hSame | hAttentive)
  · rw [hSame, hNone]
    exact nofun
  · exact hAttentive.consulted

/-- What a local search changes of the run, the journal and the random source apart. -/
theorem exists_changes_of_searchFrom {outcome : Tabu.Outcome α}
    (h : run.searchFrom solution vector = .ok (outcome, run')) :
    (∀ o ∈ run.objectives.head?, outcome.solution.size = o.size) ∧
    (∀ values ∈ run'.consulted, values = solution.values ∨ values ∈ run.consulted) ∧
    (∃ sum, WeightedSum.ofObjectives run.objectives run.drawWeights.1 = .ok sum ∧
      Tally.Steps (run.tally.hear (sum.combine vector)) run'.tally) ∧
    run' = { run with
      random := run'.random
      budget := run'.budget
      watch := run'.watch
      journal := run'.journal
      consulted := run'.consulted } := by
  obtain ⟨sum, context, rest, hSum, hLandscape, hBudget, hWatch, hImprove, rfl⟩ :=
    exists_of_searchFrom h
  obtain ⟨hSize, final, hSteps, -, -, hSpent, hMonitor⟩ := Tabu.Search.steps_of_improve hImprove
  have hConsulted := (confined_search run.search (hLandscape ▸ hSum) hSize).result _ hImprove
  have hTally := Tally.steps_of_search hSteps
  rw [← hSpent, ← hMonitor] at hTally
  refine ⟨fun o ho => ?_, fun values hValues => ?_, ⟨sum, hSum, ?_⟩, rfl⟩
  · rw [Tabu.Search.size_of_improve hImprove, hLandscape]
    exact WeightedSum.size_ofObjectives hSum o ho
  · exact (List.mem_append.mp hValues).imp_left (hConsulted values)
  · unfold Tally.hear tally
    rw [← hBudget, ← hWatch]
    exact hTally

/-- A solution with a finite vector has been improved: `i` says how. With several objectives the
result has been evaluated, which was charged last. -/
structure Improved (run : Run α ρ) (solution : Permutation) (vector : List α) (i : Improvement α)
    (run' : Run α ρ) : Prop where
  start : ∀ x ∈ vector, Scalar.isFinite x = true
  member : i.member = Member.ofVector i.outcome.solution i.member.vector
  size : ∀ o ∈ run.objectives.head?, i.outcome.solution.size = o.size
  length : i.member.vector.length = run.objectives.length
  finite : ∀ x ∈ i.member.vector, Scalar.isFinite x = true
  changes : run' = { run with
    random := run'.random
    budget := run'.budget
    watch := run'.watch
    journal := run'.journal
    consulted := run'.consulted
    archive := (run.archive.offered i.entry).2
    improved := i :: run.improved }
  consulted : ∀ values ∈ run'.consulted, values = solution.values ∨ values ∈ run.consulted ∨
    values = i.outcome.solution.values ∧
      evaluateAll run.objectives i.outcome.solution = .ok i.member.vector
  tally : ∃ sum spent, WeightedSum.ofObjectives run.objectives run.drawWeights.1 = .ok sum ∧
    Tally.Steps (run.tally.hear (sum.combine vector)) spent ∧
    if run.objectives.length = 1 then run'.tally = spent else spent.Charges 1 run'.tally

omit [RandomSource ρ] in
/-- The vector of an outcome: its value, or what the objectives say, which is charged. -/
theorem exists_changes_of_vectorOf {outcome : Tabu.Outcome α} {found : List α}
    (h : run.vectorOf outcome = .ok (found, run')) :
    found.length = run.objectives.length ∧
    (∀ values ∈ run'.consulted, values ∈ run.consulted ∨ values = outcome.solution.values ∧
      evaluateAll run.objectives outcome.solution = .ok found) ∧
    (if run.objectives.length = 1 then run'.tally = run.tally
      else run.tally.Charges 1 run'.tally) ∧
    run' = { run with
      budget := run'.budget
      watch := run'.watch
      consulted := run'.consulted } := by
  unfold vectorOf at h
  split at h
  · next hOne =>
    obtain ⟨rfl, rfl⟩ := Prod.mk.inj (Except.ok.inj h)
    exact ⟨hOne.symm, fun _ => Or.inl, (if_pos hOne).symm ▸ rfl, rfl⟩
  · next hMany =>
    obtain ⟨hVector, hCharges, hChanges⟩ := exists_of_evaluate h
    refine ⟨evaluateAll_length hVector, fun values hValues => ?_, (if_neg hMany).symm ▸ hCharges,
      ?_⟩
    · rw [hChanges] at hValues
      rcases List.mem_cons.mp hValues with rfl | hBefore
      · exact Or.inr ⟨rfl, hVector⟩
      · exact Or.inl hBefore
    · rw [hChanges]

/-- **Improving**, as a change of the run. -/
theorem improved_of_improve {m : Member α} (h : run.improve solution vector = .ok (m, run')) :
    ∃ i, i.member = m ∧ run.Improved solution vector i run' := by
  unfold improve at h
  split at h
  · exact nomatch h
  · next hStart =>
    obtain ⟨⟨outcome, searched⟩, hSearch, h⟩ := exists_of_bind_ok h
    obtain ⟨⟨found, booked⟩, hFound, h⟩ := exists_of_bind_ok h
    obtain ⟨⟨answer, archive⟩, hInsert, h⟩ := exists_of_bind_ok h
    obtain ⟨rfl, rfl⟩ := Prod.mk.inj (Except.ok.inj h)
    obtain ⟨hSize, hSearched, ⟨sum, hSum, hSteps⟩, hChanges⟩ :=
      exists_changes_of_searchFrom (ok_of_liftM_breach hSearch)
    obtain ⟨hLength, hBooked, hTally, hChanges'⟩ :=
      exists_changes_of_vectorOf (ok_of_liftM_breach hFound)
    have hObjectives : searched.objectives = run.objectives := by rw [hChanges]
    rw [hObjectives] at hLength hBooked hTally
    have hThere : booked.archive = run.archive := by rw [hChanges', hChanges]
    -- the insertion succeeded, so the offer it stands for has the same archive
    have hArchive : (run.archive.offered ⟨outcome.solution, found⟩).2 = archive := by
      unfold Pareto.Archive.offered
      rw [← hThere, ok_of_liftM_rejection hInsert]
      rfl
    -- an infinite value of the start would have been rejected
    have hFinite : ∀ x ∈ vector, Scalar.isFinite x = true := by
      intro x hx
      by_contra hNot
      exact hStart (List.any_eq_true.mpr ⟨x, hx, by simpa using hNot⟩)
    refine ⟨⟨solution, outcome, Member.ofVector outcome.solution found⟩, rfl, ?_⟩
    refine ⟨hFinite, rfl, hSize, hLength, finite_of_insert (ok_of_liftM_rejection hInsert), ?_, ?_,
      sum, searched.tally, hSum, hSteps, hTally⟩
    · -- the search and the evaluation leave everything but their own five fields
      have hAll : booked = { run with
          random := booked.random
          budget := booked.budget
          watch := booked.watch
          journal := booked.journal
          consulted := booked.consulted } := by
        rw [hChanges', hChanges]
      have hHere : (run.archive.offered (Improvement.entry
          ⟨solution, outcome, Member.ofVector outcome.solution found⟩)).2 = archive := hArchive
      rw [hHere, hAll]
    · -- a solution is consulted by the search, or when its vector is made
      intro values hValues
      rcases hBooked values hValues with hBefore | hNew
      · exact (hSearched values hBefore).imp_right Or.inl
      · exact Or.inr (Or.inr hNew)

end Improving

-- ---------------------------------------------------------------------------
-- Actions
-- ---------------------------------------------------------------------------

section Actions

variable [RandomSource ρ]

/-- One action of a run. `improve` takes a solution that has been evaluated before, `develop` one
that is evaluated now. Members come from improvements only. -/
inductive Action (run : Run α ρ) : Run α ρ → Prop
  | look : Action run run.stopReason.2
  | improve {solution : Permutation} {vector : List α} {m : Member α} {run' : Run α ρ}
      (hVector : evaluateAll run.objectives solution = .ok vector)
      (hImprove : run.improve solution vector = .ok (m, run')) : Action run run'
  | develop {solution : Permutation} {vector : List α} {evaluated run' : Run α ρ} {m : Member α}
      (hEvaluate : run.evaluate solution = .ok (vector, evaluated))
      (hImprove : evaluated.improve solution vector = .ok (m, run')) : Action run run'
  | compare {i : Improvement α} (hi : i ∈ run.improved) : Action run (run.updateBest i.member)
  | offer {i : Improvement α} (hi : i ∈ run.improved) : Action run (run.offerElite i.member)
  | replace {i : Improvement α} (hi : i ∈ run.improved) (k : Nat) :
      Action run { run with population := run.population.setIfInBounds k i.member }
  | reseed : Action run run.reseed
  | steer (random : ρ) (iterations stale round : Nat) (journal : List (Event α)) :
      Action run { run with random, iterations, stale, round, journal }

/-- Any number of actions. -/
abbrev Acts : Run α ρ → Run α ρ → Prop := ReflTransGen Action

omit [RandomSource ρ] in
theorem updateBest_changes (run : Run α ρ) (m : Member α) :
    ∃ best watch journal, run.updateBest m = { run with best, watch, journal } ∧
      Tally.Steps run.tally ⟨run.budget, watch⟩ := by
  unfold updateBest
  split
  · exact ⟨m, run.watch.raise m.fitness, _, rfl, .single (.raise m.fitness)⟩
  · exact ⟨run.best, run.watch, run.journal, rfl, .refl⟩

theorem size_reseed (run : Run α ρ) : run.reseed.population.size = run.population.size := by
  unfold reseed note
  dsimp only
  rw [Array.size_append, Array.drop_eq_extract, Array.take_eq_extract, Array.size_extract,
    Array.size_extract]
  omega

/-- No action changes the task, nor the number of members. -/
theorem Action.fixed (h : Action run run') :
    run'.objectives = run.objectives ∧ run'.settings = run.settings ∧ run'.size = run.size ∧
      run'.population.size = run.population.size := by
  cases h with
  | look =>
    rw [run.stopReason_snd]
    exact ⟨rfl, rfl, rfl, rfl⟩
  | improve _ hImprove =>
    obtain ⟨i, -, hImproved⟩ := improved_of_improve hImprove
    rw [hImproved.changes]
    exact ⟨rfl, rfl, rfl, rfl⟩
  | develop hEvaluate hImprove =>
    obtain ⟨i, -, hImproved⟩ := improved_of_improve hImprove
    obtain ⟨-, -, hChanges⟩ := exists_of_evaluate hEvaluate
    rw [hImproved.changes, hChanges]
    exact ⟨rfl, rfl, rfl, rfl⟩
  | compare _ =>
    obtain ⟨best, watch, journal, hChanges, -⟩ := updateBest_changes run _
    rw [hChanges]
    exact ⟨rfl, rfl, rfl, rfl⟩
  | offer _ => exact ⟨rfl, rfl, rfl, rfl⟩
  | replace _ k => exact ⟨rfl, rfl, rfl, Array.size_setIfInBounds ..⟩
  | reseed => exact ⟨rfl, rfl, rfl, run.size_reseed⟩
  | steer => exact ⟨rfl, rfl, rfl, rfl⟩

/-- Improving changes the tally in steps. -/
theorem Improved.steps {solution : Permutation} {vector : List α} {i : Improvement α}
    (h : run.Improved solution vector i run') : Tally.Steps run.tally run'.tally := by
  obtain ⟨sum, spent, -, hSteps, hLast⟩ := h.tally
  have hSpent := (Tally.steps_hear run.tally (sum.combine vector)).trans hSteps
  split at hLast
  · exact hLast ▸ hSpent
  · exact hSpent.tail (.charge hLast)

/-- The run `ready` knows the vector of a solution: `run` does, or the solution has been evaluated
since. -/
structure Knows (run : Run α ρ) (solution : Permutation) (vector : List α) (ready : Run α ρ) :
    Prop where
  vector : evaluateAll run.objectives solution = .ok vector
  changes : ready = { run with
    budget := ready.budget
    watch := ready.watch
    consulted := ready.consulted }
  consulted : ∀ values ∈ ready.consulted, values = solution.values ∨ values ∈ run.consulted
  steps : Tally.Steps run.tally ready.tally

/-- **What an action comes to**, as far as improvements, evaluations and charges go: a solution is
improved, or there are none. -/
theorem Action.improves_or_not (h : Action run run') :
    (run'.improved = run.improved ∧ run'.consulted = run.consulted ∧ run'.budget = run.budget ∧
      Tally.Steps run.tally run'.tally) ∨
    ∃ solution vector i ready, run.Knows solution vector ready ∧
      ready.Improved solution vector i run' := by
  -- only two kinds of action improve a solution, and the second evaluates it before
  cases h with
  | look =>
    have hSteps := run.steps_stopReason
    rw [run.stopReason_snd] at hSteps ⊢
    exact Or.inl ⟨rfl, rfl, rfl, hSteps⟩
  | improve hVector hImprove =>
    obtain ⟨i, -, hImproved⟩ := improved_of_improve hImprove
    exact Or.inr ⟨_, _, i, run, ⟨hVector, rfl, fun _ => Or.inr, .refl⟩, hImproved⟩
  | develop hEvaluate hImprove =>
    obtain ⟨i, -, hImproved⟩ := improved_of_improve hImprove
    obtain ⟨hVector, hCharges, hChanges⟩ := exists_of_evaluate hEvaluate
    refine Or.inr ⟨_, _, i, _, ⟨hVector, ?_, fun values hValues => ?_, .single (.charge hCharges)⟩,
      hImproved⟩
    · rw [hChanges]
    · rw [hChanges] at hValues
      exact List.mem_cons.mp hValues
  | compare _ =>
    obtain ⟨best, watch, journal, hChanges, hSteps⟩ := updateBest_changes run _
    rw [hChanges]
    exact Or.inl ⟨rfl, rfl, rfl, hSteps⟩
  | offer _ => exact Or.inl ⟨rfl, rfl, rfl, .refl⟩
  | replace _ _ => exact Or.inl ⟨rfl, rfl, rfl, .refl⟩
  | reseed => exact Or.inl ⟨rfl, rfl, rfl, .refl⟩
  | steer => exact Or.inl ⟨rfl, rfl, rfl, .refl⟩

/-- What has been improved stays so. -/
theorem Action.improved_subset (h : Action run run') : run.improved ⊆ run'.improved := by
  rcases h.improves_or_not with ⟨hSame, -⟩ | ⟨_, _, i, ready, hKnows, hImproved⟩
  · exact hSame ▸ List.Subset.refl _
  · rw [hImproved.changes, hKnows.changes]
    exact List.subset_cons_self ..

theorem Action.steps (h : Action run run') : Tally.Steps run.tally run'.tally := by
  rcases h.improves_or_not with ⟨-, -, -, hSteps⟩ | ⟨_, _, i, ready, hKnows, hImproved⟩
  · exact hSteps
  · exact hKnows.steps.trans hImproved.steps

/-- **What every action preserves, actions preserve.** -/
theorem Acts.preserves {P : Run α ρ → Prop} (hActs : Acts run run')
    (hAction : ∀ {run run'}, P run → Action run run' → P run') (h : P run) : P run' := by
  induction hActs with
  | refl => exact h
  | tail _ hLast ih => exact hAction ih hLast

theorem Acts.fixed (h : Acts run run') :
    run'.objectives = run.objectives ∧ run'.settings = run.settings ∧ run'.size = run.size ∧
      run'.population.size = run.population.size := by
  induction h with
  | refl => exact ⟨rfl, rfl, rfl, rfl⟩
  | tail _ hLast ih =>
    obtain ⟨hObjectives, hSettings, hSize, hPopulation⟩ := hLast.fixed
    obtain ⟨hObjectives', hSettings', hSize', hPopulation'⟩ := ih
    exact ⟨hObjectives.trans hObjectives', hSettings.trans hSettings', hSize.trans hSize',
      hPopulation.trans hPopulation'⟩

theorem Acts.improved_subset (h : Acts run run') : run.improved ⊆ run'.improved := by
  induction h with
  | refl => exact List.Subset.refl _
  | tail _ hLast ih => exact fun i hi => hLast.improved_subset (ih hi)

theorem Acts.steps (h : Acts run run') : Tally.Steps run.tally run'.tally := by
  induction h with
  | refl => exact .refl
  | tail _ hLast ih => exact ih.trans hLast.steps

end Actions

end Run

end SwapSearch.Memetic
