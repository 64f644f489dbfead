import SwapSearch.Proofs.Memetic.Safety

/-!
# SwapSearch — which evaluations a run checks

A run that meets a value which is not finite is to fail. It checks the vector of every
solution that it improves and of every result of a local search, so the solutions at which
it evaluates its objectives in full have finite values, if the run ends with a report.

It does not check everything. Seeds that the first batch has left over when seeding stops
are never improved, and nobody looks at their vectors. And what a local search finds in the
neighbourhood of a solution reaches no check, unless the search goes there and returns it.

## Results

* `Action.consulted`             — all evaluations of an action are checked.
* `optimize_finite`              — all full evaluations are, but for the seeds left over.
* `optimize_overlooks_infinity` — the others may be infinite.
-/

namespace SwapSearch.Memetic

open Relation

/-- All objectives have finite values at a solution. -/
def FinitelyValued {α : Type} [Scalar α] (objectives : List (Objective α))
    (values : Array Nat) : Prop :=
  ∃ (p : Permutation) (vector : List α), p.values = values ∧
    evaluateAll objectives p = .ok vector ∧ ∀ x ∈ vector, Scalar.isFinite x = true

namespace Run

variable {α ρ : Type} [Scalar α] [RandomSource ρ] {objectives : List (Objective α)} {n : Nat}
  {run run' : Run α ρ}

/-- Improving evaluates at its start, and perhaps at its result. Both are checked. -/
theorem Improved.finitelyValued {solution : Permutation} {vector : List α} {i : Improvement α}
    (h : run.Improved solution vector i run')
    (hVector : evaluateAll run.objectives solution = .ok vector) :
    ∀ values ∈ run'.consulted, FinitelyValued run.objectives values ∨ values ∈ run.consulted := by
  intro values hValues
  rcases h.consulted values hValues with rfl | hBefore | ⟨rfl, hFound⟩
  · exact Or.inl ⟨solution, vector, rfl, hVector, h.start⟩
  · exact Or.inr hBefore
  · exact Or.inl ⟨_, _, rfl, hFound, h.finite⟩

/-- **All evaluations of an action are checked.** -/
theorem Action.consulted (h : Action run run') :
    ∀ values ∈ run'.consulted, FinitelyValued run.objectives values ∨ values ∈ run.consulted := by
  rcases h.improves_or_not with ⟨-, hSame, -⟩ | ⟨solution, vector, i, ready, hKnows, hImproved⟩
  · exact fun _ hValues => Or.inr (hSame ▸ hValues)
  · have hObjectives : ready.objectives = run.objectives := by rw [hKnows.changes]
    intro values hValues
    rcases hImproved.finitelyValued (hObjectives ▸ hKnows.vector) values hValues with
      hFine | hBefore
    · exact Or.inl (hObjectives ▸ hFine)
    · refine (hKnows.consulted values hBefore).imp_left fun hHere => ?_
      exact ⟨solution, vector, hHere.symm, hKnows.vector, hImproved.start⟩

/-- So are all evaluations once the first generation is there. -/
theorem Fills.consulted (h : Fills run run') :
    ∀ values ∈ run'.consulted, FinitelyValued run.objectives values ∨ values ∈ run.consulted := by
  induction h with
  | refl => exact fun _ => Or.inr
  | tail hBefore hLast ih =>
    rcases hLast with hAction | hJoins
    · intro values hValues
      rcases hAction.consulted values hValues with hFine | hOld
      · exact Or.inl ((Fills.fixed hBefore).1 ▸ hFine)
      · exact ih values hOld
    · obtain ⟨-⟩ := hJoins
      exact ih

end Run

variable {α ρ : Type} [Scalar α] [OrderedScalar α] [RandomSource ρ]
  {objectives : List (Objective α)} {evaluations : Nat} {settings : Settings α} {clock : Clock}
  {random : ρ} {report : Report α ρ}

/-- **All full evaluations are finite** if a run ends with a report, except those of the seeds that
were left over. -/
theorem optimize_finite
    (hOptimize : optimize objectives evaluations settings clock random = .ok report) :
    ∀ values ∈ report.run.consulted, FinitelyValued objectives values ∨
      ∃ p ∈ (Run.drawPermutations report.run.size settings.populationSize random).1.drop
        report.run.population.size, p.values = values := by
  obtain ⟨begun, seeds, opened, start, hPrepared, hActs⟩ := prepared_of_optimize hOptimize
  have hOpened := Run.opened_of_openBatch hPrepared.open_eq
  have hStarted := hPrepared.started
  have hAdmitted := hPrepared.admitted
  have hAll : Run.Fills opened report.run := hAdmitted.fills.trans (Run.fills_of_acts hActs)
  intro values hValues
  -- later actions consult only what they check
  rcases hAll.consulted values hValues with hFine | hBatch
  · exact Or.inl (hPrepared.shape.objectives_eq ▸ hFine)
  -- the solution was evaluated with the batch: whether it was admitted decides
  obtain ⟨count, hCount, hChecked⟩ := hAdmitted.checked
  have hNone : opened.population.size = 0 := by
    rw [hOpened.changes, hStarted.population]
    rfl
  -- the population has a member for each seed that was admitted
  have hMembers : report.run.population.size = count := by
    rw [hActs.fixed.2.2.2, hCount, hNone, Nat.zero_add]
  have hSize : report.run.size = begun.size := by
    rw [hAll.fixed.2.2, hOpened.changes]
  rw [hOpened.changes, hStarted.consulted, List.append_nil] at hBatch
  obtain ⟨seed, hSeed, rfl⟩ := List.mem_map.mp (List.mem_reverse.mp hBatch)
  rw [hMembers, hSize, ← hStarted.settings_eq, ← hStarted.random_eq, ← hOpened.solutions,
    ← List.map_drop]
  rw [← List.take_append_drop count seeds] at hSeed
  rcases List.mem_append.mp hSeed with hTaken | hLeft
  · have hVector := (hPrepared.isSeed seed (List.mem_of_mem_take hTaken)).vector
    exact Or.inl ⟨seed.solution, seed.vector, rfl, hVector, hChecked seed hTaken⟩
  · exact Or.inr ⟨seed.solution, List.mem_map_of_mem hLeft, rfl⟩

-- ---------------------------------------------------------------------------
-- Values that are overlooked
-- ---------------------------------------------------------------------------

/-- An objective over two positions that is zero at one of the two solutions, and gives `answer` at
the other. -/
def pitfall (answer : Except Breach Float) : List (Objective Float) :=
  [.ofEvaluation 2 fun values => if values[0]? = some 0 then answer else .ok 0]

def calmSettings : Settings Float :=
  { Settings.default with
    populationSize := 2
    improvementDepth := 1
    tournamentSize := 1
    walk := { Settings.default.walk with perturbation := .disabled } }

/-- Both seeds are the solution of value zero, and the other solution is its only neighbour. -/
def besidePitfall (answer : Except Breach Float) : Except Failure (Report Float Random.SplitMix) :=
  optimize (pitfall answer) 3 calmSettings (.ticking 1) ⟨7⟩

/-- The first seed reaches the target. The second one is the other solution. -/
def beforePitfall (answer : Except Breach Float) : Except Failure (Report Float Random.SplitMix) :=
  optimize (pitfall answer) 3 { calmSettings with target := some 0 } (.ticking 1) ⟨1⟩

/-- Both solutions are evaluated in full, and the one that is not finite was left over. -/
theorem optimize_finite_pitfall : ∃ report, beforePitfall (.ok Scalar.negInf) = .ok report ∧
    report.run.consulted = [#[0, 1], #[1, 0]] ∧
    ∀ values ∈ report.run.consulted, FinitelyValued (pitfall (.ok Scalar.negInf)) values ∨
      ∃ p ∈ (Run.drawPermutations report.run.size 2 (⟨1⟩ : Random.SplitMix)).1.drop
        report.run.population.size, p.values = values := by
  have hConsulted : (beforePitfall (.ok Scalar.negInf)).toOption.map (·.run.consulted) =
      some [#[0, 1], #[1, 0]] := by decide +kernel
  obtain ⟨report, hRun, hSeeds⟩ := exists_of_toOption_map hConsulted
  exact ⟨report, hRun, hSeeds, optimize_finite hRun⟩

/-- A run succeeds that evaluates an objective where it is infinite: in the neighbourhood of a
solution, where it would notice a failure, and in full, at a seed that is left over. -/
theorem optimize_overlooks_infinity :
    (Scalar.isFinite (Scalar.negInf : Float) = false) ∧
    (∃ report, besidePitfall (.ok Scalar.negInf) = .ok report) ∧
    besidePitfall (.error .overflow) = .error (.broken .overflow) ∧
    ∃ report, beforePitfall (.ok Scalar.negInf) = .ok report ∧
      ∃ values ∈ report.run.consulted, ¬ FinitelyValued (pitfall (.ok Scalar.negInf)) values := by
  have hInfinite : Scalar.isFinite (Scalar.negInf : Float) = false := by decide +kernel
  have hSilent : (besidePitfall (.ok Scalar.negInf)).toOption.map (fun _ => ()) = some () := by
    decide +kernel
  have hLoud : (besidePitfall (.error .overflow)).map (fun _ => ()) =
      .error (.broken .overflow) := by decide +kernel
  have hConsulted : (beforePitfall (.ok Scalar.negInf)).toOption.map (·.run.consulted) =
      some [#[0, 1], #[1, 0]] := by decide +kernel
  obtain ⟨beside, hBeside, -⟩ := exists_of_toOption_map hSilent
  obtain ⟨before, hBefore, hSeeds⟩ := exists_of_toOption_map hConsulted
  refine ⟨hInfinite, ⟨beside, hBeside⟩, ?_, before, hBefore, #[0, 1],
    hSeeds ▸ List.mem_cons_self .., ?_⟩
  · cases hRun : besidePitfall (.error .overflow) with
    | error e =>
      rw [hRun] at hLoud
      exact congrArg Except.error (Except.error.inj hLoud)
    | ok report =>
      rw [hRun] at hLoud
      exact nomatch hLoud
  · rintro ⟨p, vector, hValues, hVector, hFinite⟩
    -- the seed that is left over has the infinite value
    have hThere : evaluateAll (pitfall (.ok Scalar.negInf)) p = .ok [Scalar.negInf] := by
      unfold evaluateAll
      rw [hValues]
      rfl
    obtain rfl := Except.ok.inj (hThere.symm.trans hVector)
    have hSome := hFinite _ (List.mem_singleton_self _)
    rw [hInfinite] at hSome
    exact nomatch hSome

end SwapSearch.Memetic
