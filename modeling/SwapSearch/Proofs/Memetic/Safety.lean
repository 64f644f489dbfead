import SwapSearch.Proofs.Memetic.Reasons
import SwapSearch.Proofs.Memetic.Shape
import SwapSearch.Proofs.Tabu.Dialogue

/-!
# SwapSearch — no assertion fails

The operators of a run assert much: that there are two members to choose from, that parents
have one size, that cut points fit, that a child is a bijection. With valid settings and
objectives of one positive size none of this ever fails, and a run ends with a report
unless it meets a fault, a failure of an objective, or a vector that is not finite.

The one thing that is not said by the shape of a run is that there are two members, since
seeding may be cut short after the first. Then the loop must stop before it breeds. It does,
because it asks again for a reason to stop, and a reason that was there once is there the
next time: the target and the budget stay as they are, and the clock does not go back.

## Results

* `Watch.resolute`      — a watch that has asked to stop does so at every poll.
* `stopReason_again`    — a reason to stop is there the next time.
* `confined_admitSeeds` — seeding fills the population or leaves a reason to stop.
* `confined_evolve`     — the loop breeds from full populations only.
* `optimize_safe`       — what holds of every run.
-/

namespace SwapSearch.Memetic

open Relation Confined

variable {α ρ : Type} [Scalar α]

-- ---------------------------------------------------------------------------
-- Asking twice
-- ---------------------------------------------------------------------------

/-- No change of the tally changes what the clock will show. -/
theorem Tally.Step.reading_eq {t t' : Tally α} (h : Tally.Step t t') :
    t'.watch.clock.reading = t.watch.clock.reading := by
  cases h with
  | look =>
    obtain ⟨looks, -, hChanges⟩ := t.watch.deadlinePassed_changes
    rw [hChanges]
  | raise => rfl
  | charge h =>
    obtain ⟨recorder, -, rfl⟩ := exists_of_charges h
    rfl

theorem Tally.Steps.reading_eq {t t' : Tally α} (h : Tally.Steps t t') :
    t'.watch.clock.reading = t.watch.clock.reading := by
  induction h with
  | refl => rfl
  | tail _ hLast ih => exact hLast.reading_eq.trans ih

theorem Tally.Steps.monotone {t t' : Tally α} (h : Tally.Steps t t')
    (hClock : t.watch.clock.Monotone) : t'.watch.clock.Monotone := by
  unfold Clock.Monotone
  rw [h.reading_eq]
  exact hClock

omit [Scalar α] in
theorem deadlinePassed_iff {w : Watch α} : w.deadlinePassed.1 = true ↔
    ∃ deadline, w.deadline = some deadline ∧ deadline ≤ w.clock.reading w.clock.looks := by
  unfold Watch.deadlinePassed
  cases w.deadline with
  | none => simp
  | some deadline =>
    simp only [Clock.look, Option.some.injEq, exists_eq_left']
    exact decide_eq_true_iff

namespace Watch

variable {w w' : Watch α}

/-- The run that is watched is over for good: its target has been reached, or its deadline has
passed at every later look at the clock. -/
def IsOver (w : Watch α) : Prop :=
  w.targetReached = true ∨ ∃ deadline, w.deadline = some deadline ∧
    ∀ look, w.clock.looks ≤ look → deadline ≤ w.clock.reading look

theorem poll_iff :
    (Monitor.poll w).1 = true ↔ w.targetReached = true ∨ w.deadlinePassed.1 = true := by
  show (if w.targetReached then (true, w) else w.deadlinePassed).1 = true ↔ _
  split
  · next hReached => simp [hReached]
  · next hNot => simp [hNot]

theorem isOver_of_poll (hClock : w.clock.Monotone) (h : (Monitor.poll w).1 = true) : w.IsOver := by
  refine (poll_iff.mp h).imp_right fun hPassed => ?_
  obtain ⟨deadline, hDeadline, hLess⟩ := deadlinePassed_iff.mp hPassed
  exact ⟨deadline, hDeadline, fun look hLook => hLess.trans (hClock _ _ hLook)⟩

theorem IsOver.poll_eq (h : w.IsOver) : (Monitor.poll w).1 = true := by
  refine poll_iff.mpr (h.imp_right fun hPassed => ?_)
  obtain ⟨deadline, hDeadline, hLate⟩ := hPassed
  exact deadlinePassed_iff.mpr ⟨deadline, hDeadline, hLate _ (Nat.le_refl _)⟩

/-- Another look at the clock does not undo it. -/
theorem IsOver.look (h : w.IsOver) : w.deadlinePassed.2.IsOver := by
  obtain ⟨looks, hLater, hChanges⟩ := w.deadlinePassed_changes
  rw [hChanges]
  refine h.imp_right fun hPassed => ?_
  obtain ⟨deadline, hDeadline, hLate⟩ := hPassed
  exact ⟨deadline, hDeadline, fun look hLook => hLate look (hLater.trans hLook)⟩

/-- Nor does a better value. -/
theorem IsOver.raise [OrderedScalar α] [FaithfulScalar α] (h : w.IsOver) (value : α) :
    (w.raise value).IsOver := by
  refine h.imp_left fun hReached => ?_
  obtain ⟨target, hTarget, hReaches⟩ := (Option.any_eq_true ..).mp hReached
  have hBest : target - Scalar.tolerance ≤ w.best := of_decide_eq_true hReaches
  -- what has reached the target is a number, and a number is only ever raised
  have hRaised : w.best ≤ Scalar.larger w.best value :=
    Scalar.le_larger_left (FaithfulScalar.isNaN_of_le hBest).2
  exact (Option.any_eq_true ..).mpr
    ⟨target, hTarget, decide_eq_true (OrderedScalar.le_trans hBest hRaised)⟩

/-- What is kept when the recorder changes, when a value is heard of and when the clock is looked at
is kept by every event of a walk. -/
theorem keeps {P : Watch α → Prop}
    (hRecorder : ∀ {w : Watch α} (recorder : Recorder α), P w → P { w with recorder })
    (hRaise : ∀ {w : Watch α} (value : α), P w → P (w.raise value))
    (hLook : ∀ {w : Watch α}, P w → P w.deadlinePassed.2) : Keeps P where
  charge := by
    intro w w' b h hCharge
    obtain ⟨recorder, -, hCharged⟩ := exists_of_bind_ok hCharge
    obtain rfl := Except.ok.inj hCharged
    exact hRecorder recorder h
  best := by
    intro w value h
    show P (if w.followsSearch then w.raise value else w)
    split
    · exact hRaise value h
    · exact h
  poll := by
    intro w h
    show P (if w.targetReached then (true, w) else w.deadlinePassed).2
    split
    · exact h
    · exact hLook h

/-- **A watch does not change its mind** if its clock never goes back. -/
theorem resolute [OrderedScalar α] [FaithfulScalar α] (hClock : w.clock.Monotone) :
    Resolute w := by
  -- no event of a walk turns the clock back
  have hOnward : Keeps fun w : Watch α => w.clock.Monotone := by
    refine keeps (fun _ h => h) (fun _ h => h) fun {w} h => ?_
    obtain ⟨looks, -, hChanges⟩ := w.deadlinePassed_changes
    rw [hChanges]
    exact h
  -- nor does any of them reopen a watch that is over
  have hOver : Keeps fun w : Watch α => w.IsOver :=
    keeps (fun _ h => h) (fun value h => h.raise value) fun h => h.look
  exact hOnward.resolute hOver isOver_of_poll IsOver.poll_eq hClock

end Watch

namespace Run

variable {objectives : List (Objective α)} {n : Nat} {run run' : Run α ρ}

theorem stopReason_isSome_iff : run.stopReason.1.isSome = true ↔
    run.budget.isExhausted = true ∨ (Monitor.poll run.watch).1 = true := by
  rw [Watch.poll_iff]
  unfold stopReason
  split
  · next hReached => simp [hReached]
  · next hNot =>
    split
    · next hSpent => simp [hSpent]
    · next hOpen => cases hPassed : run.watch.deadlinePassed.1 <;> simp [hNot, hOpen, hPassed]

/-- Asking for a reason is at most a look at the clock. -/
theorem watch_stopReason (run : Run α ρ) :
    run.stopReason.2.watch = run.watch ∨ run.stopReason.2.watch = run.watch.deadlinePassed.2 := by
  unfold stopReason
  split
  · exact Or.inl rfl
  · split
    · exact Or.inl rfl
    · exact Or.inr rfl

/-- **A reason to stop is there the next time.** -/
theorem stopReason_again (hClock : run.watch.clock.Monotone)
    (h : run.stopReason.1.isSome = true) : run.stopReason.2.stopReason.1.isSome = true := by
  rw [stopReason_isSome_iff] at h ⊢
  rcases h with hSpent | hWish
  · rw [run.stopReason_snd]
    exact Or.inl hSpent
  · have hOver := Watch.isOver_of_poll hClock hWish
    rcases run.watch_stopReason with hSame | hLooked
    · rw [hSame]
      exact Or.inr hOver.poll_eq
    · rw [hLooked]
      exact Or.inr hOver.look.poll_eq

-- ---------------------------------------------------------------------------
-- Seeding
-- ---------------------------------------------------------------------------

variable [RandomSource ρ]

/-- The first generation, drawn, evaluated and charged. -/
def openBatch (run : Run α ρ) : Except Failure (List (Member α) × Run α ρ) := do
  let (seeds, random) := drawPermutations run.size run.settings.populationSize run.random
  let vectors ← seeds.mapM (m := Except Breach) (evaluateAll run.objectives)
  let run ← { run with
    random
    consulted := (seeds.map Permutation.values).reverse ++ run.consulted }.charge seeds.length
  return (List.zipWith Member.ofVector seeds vectors, run)

theorem seed_eq (run : Run α ρ) :
    run.seed = run.openBatch >>= fun batch => batch.2.admitSeeds batch.1 := by
  unfold seed openBatch
  dsimp only
  generalize drawPermutations run.size run.settings.populationSize run.random = drawn
  cases drawn.1.mapM (m := Except Breach) (evaluateAll run.objectives) with
  | error e => rfl
  | ok vectors =>
    show (liftM (charge _ _) >>= _ : Except Failure _) = (liftM (charge _ _) >>= _) >>= _
    cases charge { run with
      random := drawn.2
      consulted := (drawn.1.map Permutation.values).reverse ++ run.consulted } drawn.1.length with
    | error e => rfl
    | ok charged => rfl

theorem size_of_mem_drawPermutations {k : Nat} {r : ρ} {p : Permutation}
    (h : p ∈ (drawPermutations n k r).1) : p.size = n := by
  induction k generalizing r with
  | zero => exact nomatch h
  | succ k ih =>
    rcases List.mem_cons.mp h with rfl | hRest
    · exact Permutation.size_random n r
    · exact ih hRest

/-- The first generation has been drawn, evaluated and charged. -/
structure Opened (run : Run α ρ) (seeds : List (Member α)) (run' : Run α ρ) : Prop where
  solutions : seeds.map (·.solution) =
    (drawPermutations run.size run.settings.populationSize run.random).1
  isSeed : ∀ start ∈ seeds, IsSeed run.objectives run.size start
  tally : run.tally.Charges run.settings.populationSize run'.tally
  changes : run' = { run with
    random := run'.random
    budget := run'.budget
    watch := run'.watch
    consulted := (seeds.map fun start => start.solution.values).reverse ++ run.consulted }

theorem Opened.length_eq {seeds : List (Member α)} (h : run.Opened seeds run') :
    seeds.length = run.settings.populationSize := by
  rw [← List.length_map (·.solution), h.solutions, length_drawPermutations]

omit [RandomSource ρ] in
/-- The solutions of a batch are those drawn. -/
theorem map_solution_ofVector {seeds : List Permutation} {vectors : List (List α)}
    (h : seeds.length = vectors.length) :
    (List.zipWith Member.ofVector seeds vectors).map (·.solution) = seeds := by
  rw [← List.map_uncurry_zip_eq_zipWith, List.map_map]
  exact List.map_fst_zip (Nat.le_of_eq h)

theorem opened_of_openBatch {seeds : List (Member α)} (h : run.openBatch = .ok (seeds, run')) :
    run.Opened seeds run' := by
  unfold openBatch at h
  generalize hDrawn : drawPermutations run.size run.settings.populationSize run.random = drawn at h
  obtain ⟨solutions, random⟩ := drawn
  -- as many solutions are drawn as members are wanted
  have hCount : solutions.length = run.settings.populationSize := by
    rw [← length_drawPermutations run.size run.settings.populationSize run.random, hDrawn]
  obtain ⟨vectors, hVectors, h⟩ := exists_of_bind_ok h
  obtain ⟨charged, hCharge, h⟩ := exists_of_bind_ok h
  obtain ⟨rfl, rfl⟩ := Prod.mk.inj (Except.ok.inj h)
  -- each solution has its own vector
  have hPairs := forall₂_of_mapM (ok_of_liftM_breach hVectors)
  have hSolutions := map_solution_ofVector (α := α) hPairs.length_eq
  obtain ⟨hCharges, hChanges⟩ := exists_of_charge (ok_of_liftM_breach hCharge)
  refine ⟨?_, fun start hStart => ⟨?_, vector_of_mem_seeds hPairs start hStart⟩,
    hCount ▸ hCharges, ?_⟩
  · rw [hDrawn]
    exact hSolutions
  · refine size_of_mem_drawPermutations (k := run.settings.populationSize) (r := run.random) ?_
    rw [hDrawn, ← hSolutions]
    exact List.mem_map_of_mem hStart
  · have hValues : (List.zipWith Member.ofVector solutions vectors).map
        (fun start => start.solution.values) = solutions.map Permutation.values :=
      List.map_map.symm.trans (congrArg (List.map Permutation.values) hSolutions)
    rw [hValues, hChanges]

/-- The first generation, if it can be evaluated. -/
theorem confined_openBatch (h : Shape objectives n run) :
    Confined (Tolerable objectives) run.openBatch fun batch => run.Opened batch.1 batch.2 := by
  refine (Confined.known (Q := fun _ => True) ?_).imp fun batch hBatch => opened_of_openBatch hBatch
  have hVectors : ∀ seeds : List Permutation, Confined (Foreseen objectives)
      (seeds.mapM (m := Except Breach) (evaluateAll run.objectives)) fun _ => True := by
    intro seeds
    rw [h.objectives_eq]
    exact (Confined.mapM fun p _ => confined_evaluateAll objectives p).imp fun _ _ => trivial
  refine Confined.bind ((hVectors _).lift fun _ h => h) fun vectors _ => ?_
  exact Confined.bind ((confined_charge _ _).lift fun _ h => h) fun _ _ => ok trivial

/-- Actions, and members that join. -/
abbrev Fills : Run α ρ → Run α ρ → Prop :=
  ReflTransGen fun run next => Action run next ∨ Joins run next

theorem fills_of_acts (h : Acts run run') : Fills run run' :=
  ReflTransGen.mono (fun _ _ hAction => Or.inl hAction) _ _ h

omit [RandomSource ρ] in
theorem Joins.steps (h : Joins run run') : Tally.Steps run.tally run'.tally := by
  obtain ⟨-⟩ := h
  exact .refl

theorem Fills.fixed (h : Fills run run') : run'.objectives = run.objectives ∧
    run'.settings = run.settings ∧ run'.size = run.size := by
  induction h with
  | refl => exact ⟨rfl, rfl, rfl⟩
  | tail _ hLast ih =>
    rcases hLast with hAction | hJoins
    · obtain ⟨hObjectives, hSettings, hSize, -⟩ := hAction.fixed
      exact ⟨hObjectives.trans ih.1, hSettings.trans ih.2.1, hSize.trans ih.2.2⟩
    · obtain ⟨-⟩ := hJoins
      exact ih

theorem Fills.improved_subset (h : Fills run run') : run.improved ⊆ run'.improved := by
  induction h with
  | refl => exact List.Subset.refl _
  | tail _ hLast ih =>
    rcases hLast with hAction | hJoins
    · exact fun i hi => hAction.improved_subset (ih hi)
    · obtain ⟨-⟩ := hJoins
      exact ih

theorem Fills.steps (h : Fills run run') : Tally.Steps run.tally run'.tally := by
  induction h with
  | refl => exact .refl
  | tail _ hLast ih => exact ih.trans (hLast.elim Action.steps Joins.steps)

variable [OrderedScalar α]

theorem Shape.fills (h : Shape objectives n run) (hFills : Fills run run') :
    Shape objectives n run' := by
  induction hFills with
  | refl => exact h
  | tail _ hLast ih => exact hLast.elim ih.action ih.joins

/-- Some of the seeds have been admitted, the first ones: all of them, unless there is a reason to
stop. -/
structure Admitted (run : Run α ρ) (seeds : List (Member α)) (next : Run α ρ) : Prop where
  fills : Fills run next
  first : ∀ start ∈ seeds.head?, ∃ admitted, run.Enters start admitted ∧ Fills admitted next
  checked : ∃ count, next.population.size = run.population.size + count ∧
    ∀ start ∈ seeds.take count, ∀ x ∈ start.vector, Scalar.isFinite x = true
  full : run.watch.clock.Monotone → next.stopReason.1 = none →
    next.population.size = run.population.size + seeds.length

/-- **Seeding** fills the population or leaves a reason to stop. -/
theorem confined_admitSeeds {seeds : List (Member α)} (h : Shape objectives n run)
    (hSeeds : ∀ start ∈ seeds, IsSeed objectives n start) :
    Confined (Tolerable objectives) (run.admitSeeds seeds) (run.Admitted seeds) := by
  -- on the seeds, from any run of the shape; each is admitted, then a reason is looked for
  induction seeds generalizing run with
  | nil => exact ok ⟨.refl, nofun, ⟨0, rfl, nofun⟩, fun _ _ => rfl⟩
  | cons start rest ih =>
    obtain ⟨hStart, hRest⟩ := List.forall_mem_cons.mp hSeeds
    refine (confined_admitSeed h hStart).bind fun admitted hEnters => ?_
    have hFinite := hEnters.finite
    obtain ⟨mid, hActs, hJoins⟩ := hEnters.acts
    have hAdmitted : Fills run admitted := (fills_of_acts hActs).tail (Or.inr hJoins)
    have hLook : Fills admitted admitted.stopReason.2 := .single (Or.inl .look)
    have hSize : admitted.stopReason.2.population.size = run.population.size + 1 := by
      rw [admitted.stopReason_snd]
      obtain ⟨-⟩ := hJoins
      rw [← hActs.fixed.2.2.2]
      exact Array.size_push ..
    -- a reason that was found is found again, as the clock has only gone on
    have hAgain := fun hClock => stopReason_again (hAdmitted.steps.monotone hClock)
    have hFirst : ∀ next, Fills admitted next → ∀ seed ∈ (start :: rest).head?,
        ∃ admitted, run.Enters seed admitted ∧ Fills admitted next := by
      intro next hNext seed hSeed
      obtain rfl := Option.some.inj hSeed
      exact ⟨admitted, hEnters, hNext⟩
    generalize admitted.stopReason = asked at hLook hSize hAgain
    obtain ⟨reason, asked⟩ := asked
    have hAsked : Fills run asked := hAdmitted.trans hLook
    cases reason with
    | some reason =>
      -- cut short, and then the run that is left has a reason to stop
      refine ok ⟨hAsked, hFirst _ hLook, ⟨1, hSize, List.forall_mem_singleton.mpr hFinite⟩,
        fun hClock hNone => ?_⟩
      have hSome := hAgain hClock rfl
      rw [hNone] at hSome
      exact nomatch hSome
    | none =>
      refine (ih (h.fills hAsked) hRest).imp fun next hNext => ?_
      obtain ⟨count, hCount, hChecked⟩ := hNext.checked
      refine ⟨hAsked.trans hNext.fills, hFirst _ (hLook.trans hNext.fills),
        ⟨count + 1, ?_, List.forall_mem_cons.mpr ⟨hFinite, hChecked⟩⟩, fun hClock hNone => ?_⟩
      · rw [hCount, hSize, Nat.add_assoc, Nat.add_comm 1]
      · rw [hNext.full (hAsked.steps.monotone hClock) hNone, hSize, List.length_cons,
          Nat.add_assoc, Nat.add_comm 1]

-- ---------------------------------------------------------------------------
-- The loop
-- ---------------------------------------------------------------------------

/-- Whoever has no reason to stop has a full population. -/
def FullIfOpen (run : Run α ρ) : Prop :=
  run.stopReason.1 = none → run.population.size = run.settings.populationSize

omit [OrderedScalar α] in
theorem two_of_makeChild {made : Member α × Run α ρ} (h : run.makeChild = .ok made) :
    2 ≤ run.population.size := by
  obtain ⟨bred, hBreed, -⟩ := exists_of_bind_ok h
  obtain ⟨chosen, hParents, -⟩ := exists_of_bind_ok (ok_of_liftM_breach hBreed)
  unfold Tournament.parents at hParents
  split at hParents
  · exact nomatch hParents
  · next hTwo =>
    rw [Array.size_map] at hTwo
    exact Nat.not_lt.mp hTwo

/-- Whatever comes to the top of the loop comes there by actions. -/
theorem AtTop.acts {start top : Run α ρ} {children : List (Member α)}
    (h : Shape objectives n start) (hTop : AtTop start children top) : Acts start top := by
  induction hTop with
  | start => exact .refl
  | @next _ _ top asked _ next _ hAsk hChild hIterate ih =>
    have hLook : Acts start asked := by
      have hAsked : top.stopReason.2 = asked := congrArg Prod.snd hAsk
      exact hAsked ▸ ih.tail .look
    exact hLook.trans
      ((confined_iterate (h.acts hLook) (two_of_makeChild hChild)).result _ hIterate)

theorem AtTop.fullIfOpen {start top : Run α ρ} {children : List (Member α)}
    (h : Shape objectives n start) (hFull : start.FullIfOpen)
    (hTop : AtTop start children top) : top.FullIfOpen := by
  induction hTop with
  | start => exact hFull
  | @next _ _ top asked _ next hBefore hAsk hChild hIterate ih =>
    intro _
    obtain ⟨-, hSettings, -, hSize⟩ := (AtTop.acts h hBefore).fixed
    have hAfter := (AtTop.acts h (hBefore.next hAsk hChild hIterate)).fixed
    rw [hAfter.2.1, hAfter.2.2.2, ← hSize, ← hSettings]
    exact ih (congrArg Prod.fst hAsk)

/-- **The loop** breeds from full populations only. -/
theorem confined_evolve {limit : Nat} (h : Shape objectives n run) (hFull : run.FullIfOpen)
    (hTwo : 2 ≤ run.settings.populationSize) :
    Confined (Tolerable objectives) (run.evolve limit) fun _ => True := by
  induction limit generalizing run with
  | zero => exact ok trivial
  | succ limit ih =>
    unfold evolve
    have hLook : Action run run.stopReason.2 := .look
    unfold FullIfOpen at hFull
    generalize run.stopReason = asked at hLook hFull
    obtain ⟨reason, asked⟩ := asked
    cases reason with
    | some reason => exact ok trivial
    | none =>
      obtain ⟨-, hSettings, -, hSize⟩ := hLook.fixed
      -- no reason to stop, so the population is full
      have hCount : asked.population.size = asked.settings.populationSize := by
        rw [hSize, hSettings]
        exact hFull rfl
      have hAsked := h.action hLook
      rw [← hSettings] at hTwo
      refine (confined_iterate hAsked (hCount ▸ hTwo)).bind fun next hNext => ?_
      obtain ⟨-, hSettings', -, hSize'⟩ := hNext.fixed
      -- an iteration leaves the number of members as it is
      refine ih (hAsked.acts hNext) (fun _ => ?_) (hSettings' ▸ hTwo)
      rw [hSize', hSettings', hCount]

end Run

-- ---------------------------------------------------------------------------
-- The beginning
-- ---------------------------------------------------------------------------

section Whole

variable {objectives : List (Objective α)} {evaluations : Nat} {settings : Settings α}
  {clock : Clock} {random : ρ} {n : Nat}

/-- What the checks of the settings ensure. -/
structure Settings.Checked (settings : Settings α) : Prop where
  population : 2 ≤ settings.populationSize
  elites : settings.eliteCapacity ≠ 0
  buckets : settings.bucketCapacity ≠ 0
  period : settings.snapshotEvery ≠ some 0
  walk : settings.walk.defect? = none

omit [Scalar α] in
/-- A check that finds nothing is passed, and so is the rest. -/
theorem passed_of_ite {δ : Type} {c : Prop} [Decidable c] {defect : δ} {rest : Option δ}
    (h : (if c then some defect else rest) = none) : ¬ c ∧ rest = none := by
  split at h
  · exact nomatch h
  · next hNot => exact ⟨hNot, h⟩

theorem checked_of_valid (h : settings.defect? = none) : settings.Checked := by
  obtain ⟨hPopulation, h⟩ := passed_of_ite h
  obtain ⟨-, h⟩ := passed_of_ite h
  obtain ⟨-, h⟩ := passed_of_ite h
  obtain ⟨-, h⟩ := passed_of_ite h
  obtain ⟨-, h⟩ := passed_of_ite h
  obtain ⟨hElites, h⟩ := passed_of_ite h
  obtain ⟨hBuckets, h⟩ := passed_of_ite h
  obtain ⟨hPeriod, h⟩ := passed_of_ite h
  obtain ⟨-, h⟩ := passed_of_ite h
  obtain ⟨-, hWalk⟩ := passed_of_ite h
  exact ⟨Nat.not_lt.mp hPopulation, hElites, hBuckets, hPeriod, hWalk⟩

omit [Scalar α] in
/-- What the check of the objectives ensures. -/
theorem bounds_of_commonSize (h : commonSize objectives = .ok n) :
    0 < n ∧ 1 ≤ objectives.length ∧ objectives.length ≤ 64 := by
  unfold commonSize at h
  split at h
  · exact nomatch h
  · split at h
    · exact nomatch h
    · next hMany =>
      split at h
      · exact nomatch h
      · next hSize =>
        split at h
        · exact nomatch h
        · obtain rfl := Except.ok.inj h
          exact ⟨Nat.pos_of_ne_zero hSize, Nat.succ_pos _, Nat.not_lt.mp hMany⟩

/-- A run that has just begun. -/
structure Run.Started (objectives : List (Objective α)) (evaluations : Nat) (settings : Settings α)
    (clock : Clock) (random : ρ) (run : Run α ρ) : Prop where
  valid : settings.defect? = none
  common : commonSize objectives = .ok run.size
  settings_eq : run.settings = settings
  random_eq : run.random = random
  tally_eq : run.tally = ⟨.grant evaluations, .begin settings objectives.length clock⟩
  population : run.population = #[]
  consulted : run.consulted = []
  improved : run.improved = []

theorem started_of_begin {run : Run α ρ}
    (h : Run.begin objectives evaluations settings clock random = .ok run) :
    run.Started objectives evaluations settings clock random := by
  obtain ⟨size, hSize, h⟩ := exists_of_bind_ok h
  obtain ⟨_, hValid, h⟩ := exists_of_bind_ok h
  obtain ⟨search, -, h⟩ := exists_of_bind_ok h
  obtain ⟨archive, -, h⟩ := exists_of_bind_ok h
  obtain ⟨elites, -, h⟩ := exists_of_bind_ok h
  obtain ⟨_, -, h⟩ := exists_of_bind_ok h
  obtain ⟨best, -, h⟩ := exists_of_bind_ok h
  obtain rfl := Except.ok.inj h
  refine ⟨?_, ok_of_liftM_rejection hSize, rfl, rfl, rfl, rfl, rfl, rfl⟩
  have hChecked := ok_of_liftM_rejection hValid
  unfold Settings.validate at hChecked
  split at hChecked
  · exact nomatch hChecked
  · assumption

theorem reading_begin (settings : Settings α) (dimensions : Nat) (clock : Clock) :
    (Watch.begin settings dimensions clock).clock.reading = clock.reading := by
  unfold Watch.begin
  cases settings.timeLimit <;> rfl

/-- **The beginning.** With valid settings and objectives of one size only memory can run out. -/
theorem confined_begin (hValid : settings.defect? = none)
    (hSize : commonSize objectives = .ok n) :
    Confined (Tolerable objectives)
      (Run.begin objectives evaluations settings clock random) (Run.Shape objectives n) := by
  have hChecked := checked_of_valid hValid
  obtain ⟨hPositive, hSome, hMost⟩ := bounds_of_commonSize hSize
  obtain ⟨hNonempty, hSizes⟩ := size_eq_of_commonSize hSize
  obtain ⟨a, hArchive, hEmpty⟩ := Pareto.exists_empty (α := α) ⟨hSome, hMost⟩
    (Nat.one_le_iff_ne_zero.mpr hChecked.buckets)
  have hSearch : ∃ search, localSearch settings objectives.length = .ok search := by
    unfold localSearch Tabu.Search.ofSettings
    split
    · cases settings.target <;> exact ⟨_, rfl⟩
    · next hDefect => exact nomatch hDefect.symm.trans hChecked.walk
  obtain ⟨search, hSearch⟩ := hSearch
  have hSet : (EliteSet.empty settings.eliteCapacity : Except Breach (EliteSet α)) =
      .ok { capacity := settings.eliteCapacity, members := #[] } := if_neg hChecked.elites
  have hPassed : settings.validate = .ok () := by
    unfold Settings.validate
    rw [hValid]
  -- the checks in the order they are made, each answered by the settings being valid
  refine Confined.bind_ok (congrArg liftM hSize) ?_
  refine Confined.bind_ok (congrArg liftM hPassed) ?_
  refine Confined.bind_ok (congrArg liftM hSearch) ?_
  refine Confined.bind_ok (congrArg liftM hArchive) ?_
  refine Confined.bind_ok (congrArg liftM hSet) ?_
  -- what is left to fail is memory, for the population and for the stand-in
  refine Confined.bind (Q := fun _ => True)
    ((Tabu.confined_reserve (fun _ h => h) _ _).lift fun _ => Or.inl) fun _ _ => ?_
  have hStandIn : Confined (fun cause => cause.isFault = true)
      (noMember n objectives.length : Except Breach (Member α)) fun _ => True :=
    Confined.bind (Q := fun _ => True)
      ((Tabu.confined_reserve (fun _ h => h) _ _).bind fun _ _ => ok trivial) fun _ _ => ok trivial
  refine Confined.bind (hStandIn.lift fun _ => Or.inl) fun best _ => ?_
  exact ok ⟨rfl, hNonempty, hSizes, hPositive, rfl, nofun, nofun, nofun, nofun, [], hEmpty, nofun⟩

variable [RandomSource ρ] [OrderedScalar α]

/-- The run as it first comes to its loop: full, or with a reason to stop. -/
theorem confined_prepare (hValid : settings.defect? = none)
    (hSize : commonSize objectives = .ok n) :
    Confined (Tolerable objectives)
      (Run.prepare objectives evaluations settings clock random) fun start =>
        start.Shape objectives n ∧ start.settings = settings ∧
          (clock.Monotone → start.FullIfOpen) := by
  refine ((confined_begin hValid hSize).and fun _ => started_of_begin).bind ?_
  rintro begun ⟨hShape, hStarted⟩
  rw [Run.seed_eq]
  refine (Run.confined_openBatch hShape).bind ?_
  rintro ⟨seeds, opened⟩ hOpened
  dsimp only at hOpened
  -- opening the batch moves the source and the budget only
  have hStart : opened.Shape objectives n := by
    rw [hOpened.changes]
    exact { hShape with }
  have hSeeds : ∀ start ∈ seeds, Run.IsSeed objectives n start := by
    have hAll := hOpened.isSeed
    rwa [hShape.objectives_eq, hShape.size_eq] at hAll
  refine (Run.confined_admitSeeds hStart hSeeds).imp fun start hAdmitted => ?_
  have hBegun : opened.settings = begun.settings := by rw [hOpened.changes]
  have hSame : start.settings = settings :=
    hAdmitted.fills.fixed.2.1.trans (hBegun.trans hStarted.settings_eq)
  refine ⟨hStart.fills hAdmitted.fills, hSame, fun hClock hOpen => ?_⟩
  have hBegunClock : begun.watch.clock.Monotone := by
    have hWatch : begun.watch = .begin settings objectives.length clock :=
      congrArg Tally.watch hStarted.tally_eq
    unfold Clock.Monotone
    rw [hWatch, reading_begin]
    exact hClock
  -- the clock is that of the beginning, a charge later
  have hMonotone : opened.watch.clock.Monotone :=
    Tally.Steps.monotone (.single (.charge hOpened.tally)) hBegunClock
  have hBefore : opened.population = #[] := by rw [hOpened.changes, hStarted.population]
  rw [hAdmitted.full hMonotone hOpen, hBefore, hOpened.length_eq, hSame, hStarted.settings_eq]
  exact Nat.zero_add _

-- ---------------------------------------------------------------------------
-- Whole runs
-- ---------------------------------------------------------------------------

/-- The states that a run passes through: it begins, opens the first generation, and goes on by
actions and by members that join. -/
inductive Visits (objectives : List (Objective α)) (evaluations : Nat) (settings : Settings α)
    (clock : Clock) (random : ρ) : Run α ρ → Prop
  | begun {run : Run α ρ} (h : Run.begin objectives evaluations settings clock random = .ok run) :
      Visits objectives evaluations settings clock random run
  | opened {begun run : Run α ρ} {seeds : List (Member α)}
      (hBegin : Run.begin objectives evaluations settings clock random = .ok begun)
      (hOpen : begun.openBatch = .ok (seeds, run)) :
      Visits objectives evaluations settings clock random run
  | fills {run next : Run α ρ} (h : Visits objectives evaluations settings clock random run)
      (hNext : Run.Action run next ∨ Run.Joins run next) :
      Visits objectives evaluations settings clock random next

/-- All members, elites and archived solutions are well-formed. -/
structure Run.AllWellFormed (n d : Nat) (run : Run α ρ) : Prop where
  population : ∀ m ∈ run.population, WellFormed n d m.solution m.vector
  elites : ∀ m ∈ run.elites.members, WellFormed n d m.solution m.vector
  archive : ∀ e ∈ run.archive.entries, WellFormed n d e.solution e.vector

variable {run start top asked : Run α ρ} {children : List (Member α)}

theorem shape_of_visits (hValid : settings.defect? = none)
    (hSize : commonSize objectives = .ok n)
    (h : Visits objectives evaluations settings clock random run) : run.Shape objectives n := by
  induction h with
  | begun h => exact (confined_begin hValid hSize).result _ h
  | opened hBegin hOpen =>
    have hShape := (confined_begin hValid hSize).result _ hBegin
    rw [(Run.opened_of_openBatch hOpen).changes]
    exact { hShape with }
  | fills _ hNext ih => exact hNext.elim ih.action ih.joins

omit [OrderedScalar α] in
theorem Visits.trans {run next : Run α ρ}
    (h : Visits objectives evaluations settings clock random run) (hFills : Run.Fills run next) :
    Visits objectives evaluations settings clock random next := by
  induction hFills with
  | refl => exact h
  | tail _ hLast ih => exact ih.fills hLast

/-- How a run came to the state `start`, in which its population is filled. -/
structure Prepared (objectives : List (Objective α)) (evaluations : Nat) (settings : Settings α)
    (clock : Clock) (random : ρ) (begun : Run α ρ) (seeds : List (Member α))
    (opened start : Run α ρ) : Prop where
  begin_eq : Run.begin objectives evaluations settings clock random = .ok begun
  open_eq : begun.openBatch = .ok (seeds, opened)
  admit_eq : opened.admitSeeds seeds = .ok start
  started : begun.Started objectives evaluations settings clock random
  shape : opened.Shape objectives begun.size
  isSeed : ∀ seed ∈ seeds, Run.IsSeed objectives begun.size seed
  admitted : opened.Admitted seeds start

theorem prepared_of_prepare
    (h : Run.prepare objectives evaluations settings clock random = .ok start) :
    ∃ begun seeds opened,
      Prepared objectives evaluations settings clock random begun seeds opened start := by
  obtain ⟨begun, hBegin, hSeed⟩ := exists_of_bind_ok h
  rw [Run.seed_eq] at hSeed
  obtain ⟨⟨seeds, opened⟩, hOpen, hAdmit⟩ := exists_of_bind_ok hSeed
  have hStarted := started_of_begin hBegin
  have hBegun := (confined_begin hStarted.valid hStarted.common).result _ hBegin
  have hShape := shape_of_visits hStarted.valid hStarted.common (.opened hBegin hOpen)
  have hSeeds := (Run.opened_of_openBatch hOpen).isSeed
  rw [hBegun.objectives_eq] at hSeeds
  exact ⟨begun, seeds, opened, hBegin, hOpen, hAdmit, hStarted, hShape, hSeeds,
    (Run.confined_admitSeeds hShape hSeeds).result _ hAdmit⟩

/-- Whatever comes to the top of the loop is visited. -/
theorem visits_atTop
    (hPrepare : Run.prepare objectives evaluations settings clock random = .ok start)
    (hTop : start.AtTop children top) :
    Visits objectives evaluations settings clock random top := by
  obtain ⟨begun, seeds, opened, h⟩ := prepared_of_prepare hPrepare
  have hStart := (Visits.opened h.begin_eq h.open_eq).trans h.admitted.fills
  exact hStart.trans (Run.fills_of_acts (hTop.acts (h.shape.fills h.admitted.fills)))

omit [OrderedScalar α] in
theorem optimize_eq : optimize objectives evaluations settings clock random =
    Run.prepare objectives evaluations settings clock random >>= fun start =>
      start.evolve start.budget.remaining >>= fun ended =>
        .ok ⟨ended.1, ended.2.note (ended.2.closing ended.1)⟩ := by
  unfold optimize Run.prepare
  cases Run.begin objectives evaluations settings clock random with
  | error e => rfl
  | ok begun => rfl

/-- A run fails tolerably. -/
theorem confined_optimize (hValid : settings.defect? = none)
    (hSize : commonSize objectives = .ok n) (hClock : clock.Monotone) :
    Confined (Tolerable objectives) (optimize objectives evaluations settings clock random)
      fun _ => True := by
  rw [optimize_eq]
  refine (confined_prepare hValid hSize).bind ?_
  rintro start ⟨hShape, hSettings, hFull⟩
  have hTwo : 2 ≤ start.settings.populationSize := hSettings ▸ (checked_of_valid hValid).population
  exact (Run.confined_evolve hShape (hFull hClock) hTwo).bind fun _ _ => ok trivial

omit [OrderedScalar α] in
/-- A report is about the run at a top of its loop, after one more look. -/
theorem acts_of_optimize {report : Report α ρ}
    (h : optimize objectives evaluations settings clock random = .ok report) :
    ∃ start children top, Run.prepare objectives evaluations settings clock random = .ok start ∧
      start.AtTop children top ∧ Run.Acts top report.run := by
  obtain ⟨start, children, top, answer, ended, hPrepare, hTop, hAsk, -, -, hRun, -⟩ :=
    exists_of_optimize h
  refine ⟨start, children, top, hPrepare, hTop, ?_⟩
  have hLook : Run.Action top top.stopReason.2 := .look
  rw [hAsk] at hLook
  rw [hRun]
  exact (ReflTransGen.single hLook).tail
    (.steer ended.random ended.iterations ended.stale ended.round _)

/-- **A whole run** is prepared, and then goes on by actions. -/
theorem prepared_of_optimize {report : Report α ρ}
    (h : optimize objectives evaluations settings clock random = .ok report) :
    ∃ begun seeds opened start,
      Prepared objectives evaluations settings clock random begun seeds opened start ∧
      Run.Acts start report.run := by
  obtain ⟨start, children, top, hPrepare, hTop, hActs⟩ := acts_of_optimize h
  obtain ⟨begun, seeds, opened, hPrepared⟩ := prepared_of_prepare hPrepare
  have hShape := hPrepared.shape.fills hPrepared.admitted.fills
  exact ⟨begun, seeds, opened, start, hPrepared, (hTop.acts hShape).trans hActs⟩

/-- All that happens to the tally of a run. -/
theorem steps_of_optimize {report : Report α ρ}
    (h : optimize objectives evaluations settings clock random = .ok report) :
    Tally.Steps ⟨.grant evaluations, .begin settings objectives.length clock⟩ report.run.tally := by
  obtain ⟨begun, seeds, opened, start, hPrepared, hActs⟩ := prepared_of_optimize h
  have hOpened : Tally.Steps begun.tally opened.tally :=
    .single (.charge (Run.opened_of_openBatch hPrepared.open_eq).tally)
  rw [← hPrepared.started.tally_eq]
  exact (hOpened.trans hPrepared.admitted.fills.steps).trans hActs.steps

/-- **No assertion fails.** Whatever a run passes through, its members, elites and archived
solutions are bijections with finite vectors of the right length; it breeds and mutates full
populations only; and if it fails, then because a vector was not finite, with a fault, or as an
objective does. -/
theorem optimize_safe (hValid : settings.defect? = none) (hSize : commonSize objectives = .ok n)
    (hClock : clock.Monotone) :
    (∀ run, Visits objectives evaluations settings clock random run →
      run.AllWellFormed n objectives.length) ∧
    (∀ start children top asked,
      Run.prepare objectives evaluations settings clock random = .ok start →
      start.AtTop children top → top.stopReason = (none, asked) →
      2 ≤ settings.populationSize ∧
      Visits objectives evaluations settings clock random asked ∧
      asked.population.size = settings.populationSize ∧
      ∀ child grown, asked.makeChild = .ok (child, grown) →
        Visits objectives evaluations settings clock random (grown.countChild child) ∧
        (grown.countChild child).population.size = settings.populationSize) ∧
    (∀ report, optimize objectives evaluations settings clock random = .ok report →
      Visits objectives evaluations settings clock random report.run) ∧
    ∀ e, optimize objectives evaluations settings clock random = .error e →
      e = .rejected .nonFiniteObjective ∨ ∃ cause, e = .broken cause ∧
        (cause.isFault = true ∨ ∃ o ∈ objectives, o.Raises cause) := by
  have hTwo := (checked_of_valid hValid).population
  refine ⟨fun run hRun => ?_, ?_, fun report hReport => ?_, fun e he => ?_⟩
  · -- one invariant, kept by every action, gives the three lists
    have hShape := shape_of_visits hValid hSize hRun
    exact ⟨hShape.population, hShape.elites, hShape.entries⟩
  · intro start children top asked hPrepare hTop hAsk
    obtain ⟨hStart, hSettings, hFull⟩ := (confined_prepare hValid hSize).result _ hPrepare
    have hLook : Run.Action top top.stopReason.2 := .look
    rw [hAsk] at hLook
    have hVisited := (visits_atTop hPrepare hTop).fills (.inl hLook)
    have hShape := shape_of_visits hValid hSize hVisited
    -- the loop goes on, so the population is as large as it was to be
    have hCount : asked.population.size = settings.populationSize := by
      have hOpen := hTop.fullIfOpen hStart (hFull hClock) (congrArg Prod.fst hAsk)
      rw [hLook.fixed.2.2.2, hOpen, (hTop.acts hStart).fixed.2.1, hSettings]
    refine ⟨hTwo, hVisited, hCount, fun child grown hChild => ?_⟩
    obtain ⟨stale, round, hCounted⟩ := grown.countChild_changes child
    have hGrown : Run.Acts asked grown :=
      ((Run.confined_makeChild hShape (hCount ▸ hTwo)).result _ hChild).1
    -- counting a child touches no member
    have hActs : Run.Acts asked (grown.countChild child) := by
      rw [hCounted]
      exact hGrown.tail (.steer grown.random grown.iterations stale round grown.journal)
    exact ⟨hVisited.trans (Run.fills_of_acts hActs), hActs.fixed.2.2.2.trans hCount⟩
  · obtain ⟨start, children, top, hPrepare, hTop, hActs⟩ := acts_of_optimize hReport
    exact (visits_atTop hPrepare hTop).trans (Run.fills_of_acts hActs)
  · have hTolerable := (confined_optimize hValid hSize hClock).error e he
    cases e with
    | rejected cause => exact Or.inl (congrArg Failure.rejected hTolerable)
    | broken cause => exact Or.inr ⟨cause, rfl, hTolerable⟩

theorem monotone_ticking (period : Nat) : (Clock.ticking period).Monotone :=
  fun _ _ h => Nat.div_le_div_right h

/-- A run of two members that has a target and a deadline, and ends with a report. -/
theorem optimize_safe_rivals :
    aimedSettings.defect? = none ∧ commonSize rivals = .ok 3 ∧ (Clock.ticking 1).Monotone ∧
    (∃ report, aimedRun = .ok report ∧ report.run.AllWellFormed 3 2) ∧
    ∀ run, Visits rivals 20 aimedSettings (.ticking 1) (⟨7⟩ : Random.SplitMix) run →
      run.AllWellFormed 3 2 := by
  have hValid : aimedSettings.defect? = none := by decide +kernel
  have hSize : commonSize rivals = .ok 3 := by decide +kernel
  have hEnd : aimedRun.toOption.map (fun _ => ()) = some () := by decide +kernel
  obtain ⟨report, hRun, -⟩ := exists_of_toOption_map hEnd
  have hWellFormed : ∀ run,
      Visits rivals 20 aimedSettings (.ticking 1) (⟨7⟩ : Random.SplitMix) run →
        run.AllWellFormed 3 2 :=
    (optimize_safe hValid hSize (monotone_ticking 1)).1
  have hEnded := (optimize_safe hValid hSize (monotone_ticking 1)).2.2.1 report hRun
  exact ⟨hValid, hSize, monotone_ticking 1, ⟨report, hRun, hWellFormed _ hEnded⟩, hWellFormed⟩

end Whole

end SwapSearch.Memetic
