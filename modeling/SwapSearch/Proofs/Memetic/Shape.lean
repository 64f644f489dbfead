import SwapSearch.Proofs.Memetic.Actions
import SwapSearch.Proofs.Permutation
import SwapSearch.Proofs.Population.Chain
import SwapSearch.Proofs.Population.Matched
import SwapSearch.Proofs.Population.Tournament
import SwapSearch.Proofs.Population.Uniform

/-!
# SwapSearch — the shape of a run

Members, elites and archived solutions are bijections of one size, each with a finite
vector that has a component for every objective. Every action keeps them so, because all it
brings in was improved before, and the last thing that improving does is to offer the
result to the archive, which checks it.

This is what the operators ask for. So while a run has its shape and at least two members,
an iteration fails for one of three reasons only: a fault, a failure of an objective, or a
vector that is not finite. Otherwise it is a sequence of actions.

## Results

* `Shape.action`       — every action keeps the shape.
* `confined_improve`   — how improving a solution can fail.
* `breed_succeeds`     — two members of a run have a child.
* `confined_iterate`   — an iteration fails tolerably, or is a sequence of actions.
* `confined_admitSeed` — so does the admission of a seed, or the seed enters the population.
-/

namespace SwapSearch

theorem mem_of_mem_extract {β : Type} {xs : Array β} {i j : Nat} {x : β}
    (h : x ∈ xs.extract i j) : x ∈ xs := by
  obtain ⟨k, hk, rfl⟩ := Array.mem_extract_iff_getElem.mp h
  exact Array.getElem_mem _

theorem EliteSet.mem_of_offer {α : Type} [Graded α] {s : EliteSet α} {m x : Member α}
    (h : x ∈ (s.offer m).2.members) : x ∈ s.members ∨ x = m := by
  unfold offer at h
  split at h
  · exact Or.inl h
  · split at h
    · exact Array.mem_push.mp h
    · unfold displace at h
      split at h
      · exact Or.inl h
      · split at h
        · exact Array.mem_or_eq_of_mem_setIfInBounds h
        · exact Or.inl h

namespace Memetic

open Relation Confined

/-- A bijection of `n` items with a finite vector of `d` components. -/
structure WellFormed {α : Type} [Scalar α] (n d : Nat) (solution : Permutation)
    (vector : List α) : Prop where
  bijection : solution.toList.Perm (List.range n)
  length : vector.length = d
  finite : ∀ x ∈ vector, Scalar.isFinite x = true

/-- The failures of a run that are no failures of its own: a vector that is not finite, a fault, a
failure of an objective. -/
def Tolerable {α : Type} (objectives : List (Objective α)) : Failure → Prop
  | .rejected cause => cause = .nonFiniteObjective
  | .broken cause => Foreseen objectives cause

variable {α ρ : Type} [Scalar α] {objectives : List (Objective α)} {n : Nat}

theorem WellFormed.size_eq {d : Nat} {solution : Permutation} {vector : List α}
    (h : WellFormed n d solution vector) : solution.size = n :=
  h.bijection.length_eq.trans List.length_range

theorem wellFormed_of_size {d : Nat} {solution : Permutation} {vector : List α}
    (hSize : solution.size = n) (hLength : vector.length = d)
    (hFinite : ∀ x ∈ vector, Scalar.isFinite x = true) : WellFormed n d solution vector :=
  ⟨hSize ▸ solution.toList_perm, hLength, hFinite⟩

namespace Run

/-- The shape of a run. -/
structure Shape (objectives : List (Objective α)) (n : Nat) (run : Run α ρ) : Prop where
  objectives_eq : run.objectives = objectives
  nonempty : objectives ≠ []
  sizes : ∀ o ∈ objectives, o.size = n
  positive : 0 < n
  size_eq : run.size = n
  population : ∀ m ∈ run.population, WellFormed n objectives.length m.solution m.vector
  elites : ∀ m ∈ run.elites.members, WellFormed n objectives.length m.solution m.vector
  improved : ∀ i ∈ run.improved,
    WellFormed n objectives.length i.member.solution i.member.vector
  fitness : ∀ i ∈ run.improved, i.member.fitness = Scalar.mean i.member.vector
  archive : ∃ roster, Pareto.Represents objectives.length run.archive roster ∧
    ∀ e ∈ roster, WellFormed n objectives.length e.solution e.vector

variable {run run' : Run α ρ}

-- ---------------------------------------------------------------------------
-- Actions
-- ---------------------------------------------------------------------------

namespace Shape

/-- All archived entries are on the roster. -/
theorem entries (h : Shape objectives n run) :
    ∀ e ∈ run.archive.entries, WellFormed n objectives.length e.solution e.vector := by
  obtain ⟨roster, hRepresents, hRoster⟩ := h.archive
  exact fun e he => hRoster e (hRepresents.entries_perm.mem_iff.mp he)

theorem head_size (h : Shape objectives n run) {o : Objective α} (ho : o ∈ run.objectives.head?) :
    o.size = n :=
  h.sizes o (h.objectives_eq ▸ List.mem_of_mem_head? ho)

/-- The head of the objectives gives the size. -/
theorem eq_size (h : Shape objectives n run) {k : Nat}
    (hk : ∀ o ∈ run.objectives.head?, k = o.size) : k = n := by
  have hSome : run.objectives ≠ [] := h.objectives_eq ▸ h.nonempty
  have hHead := List.head?_eq_some_head hSome
  exact (hk _ hHead).trans (h.head_size hHead)

theorem evaluated {solution : Permutation} {vector : List α} (h : Shape objectives n run)
    (hEvaluate : run.evaluate solution = .ok (vector, run')) : Shape objectives n run' := by
  obtain ⟨-, -, hChanges⟩ := exists_of_evaluate hEvaluate
  rw [hChanges]
  exact { h with }

variable [RandomSource ρ] [OrderedScalar α]

omit [OrderedScalar α] in
/-- What a local search returns is well-formed, since the archive has checked its vector. -/
theorem wellFormed {solution : Permutation} {vector : List α} {i : Improvement α}
    (h : Shape objectives n run) (hImproved : run.Improved solution vector i run') :
    WellFormed n objectives.length i.member.solution i.member.vector := by
  have hSolution : i.member.solution = i.outcome.solution :=
    congrArg Member.solution hImproved.member
  refine wellFormed_of_size ?_ (h.objectives_eq ▸ hImproved.length) hImproved.finite
  rw [hSolution]
  exact h.eq_size hImproved.size

theorem ofImproved {solution : Permutation} {vector : List α} {i : Improvement α}
    (h : Shape objectives n run) (hImproved : run.Improved solution vector i run') :
    Shape objectives n run' := by
  have hMember := h.wellFormed hImproved
  have hSolution : i.entry.solution = i.member.solution :=
    (congrArg Member.solution hImproved.member).symm
  obtain ⟨roster, hRepresents, hRoster⟩ := h.archive
  obtain ⟨-, hOffered⟩ := Pareto.represents_offered hRepresents i.entry
  rw [hImproved.changes]
  refine { h with
    improved := List.forall_mem_cons.mpr ⟨hMember, h.improved⟩
    fitness := List.forall_mem_cons.mpr ⟨congrArg Member.fitness hImproved.member, h.fitness⟩
    archive := ⟨_, hOffered, fun e he => ?_⟩ }
  rcases Pareto.Roster.mem_of_offered he with rfl | hBefore
  · exact hSolution ▸ hMember
  · exact hRoster e hBefore

/-- **Every action keeps the shape.** -/
theorem action (h : Shape objectives n run) (hAction : Action run run') :
    Shape objectives n run' := by
  -- every list grows by improved members, or by members it had or the elites have
  cases hAction with
  | look =>
    rw [run.stopReason_snd]
    exact { h with }
  | improve _ hImprove =>
    obtain ⟨i, -, hImproved⟩ := improved_of_improve hImprove
    exact h.ofImproved hImproved
  | develop hEvaluate hImprove =>
    obtain ⟨i, -, hImproved⟩ := improved_of_improve hImprove
    exact (h.evaluated hEvaluate).ofImproved hImproved
  | compare _ =>
    obtain ⟨best, watch, journal, hChanges, -⟩ := updateBest_changes run _
    rw [hChanges]
    exact { h with }
  | @offer i hi =>
    refine { h with elites := fun m hm => ?_ }
    rcases EliteSet.mem_of_offer hm with hBefore | rfl
    · exact h.elites m hBefore
    · exact h.improved i hi
  | @replace i hi k =>
    refine { h with population := fun m hm => ?_ }
    rcases Array.mem_or_eq_of_mem_setIfInBounds hm with hBefore | rfl
    · exact h.population m hBefore
    · exact h.improved i hi
  | reseed =>
    refine { h with population := fun m hm => ?_ }
    rcases Array.mem_append.mp hm with hTaken | hLeft
    · rw [Array.take_eq_extract] at hTaken
      exact h.elites m (Random.mem_shuffle (mem_of_mem_extract hTaken))
    · rw [Array.drop_eq_extract] at hLeft
      exact h.population m (mem_of_mem_extract hLeft)
  | steer => exact { h with }

theorem acts (h : Shape objectives n run) (hActs : Acts run run') : Shape objectives n run' :=
  hActs.preserves action h

end Shape

-- ---------------------------------------------------------------------------
-- Improving
-- ---------------------------------------------------------------------------

omit [Scalar α] in
theorem confined_evaluateAll (objectives : List (Objective α)) (solution : Permutation) :
    Confined (Foreseen objectives) (evaluateAll objectives solution) fun vector =>
      vector.length = objectives.length :=
  ((Confined.mapM fun _ ho => confined_evaluate ho solution.values).and
    fun _ h => evaluateAll_length h).imp fun _ h => h.2

theorem confined_charge (run : Run α ρ) (units : Nat) :
    Confined (Foreseen objectives) (run.charge units) fun _ => True :=
  (confined_onCharge (fun _ => Or.inl) _ _).bind fun _ _ => ok trivial

theorem confined_evaluate (h : Shape objectives n run) (solution : Permutation) :
    Confined (Foreseen objectives) (run.evaluate solution) fun evaluated =>
      run.evaluate solution = .ok evaluated := by
  have hVector : Confined (Foreseen objectives) (evaluateAll run.objectives solution)
      fun _ => True := by
    rw [h.objectives_eq]
    exact (confined_evaluateAll objectives solution).imp fun _ _ => trivial
  refine Confined.known (Q := fun _ => True) ?_
  exact hVector.bind fun _ _ => (confined_charge _ 1).bind fun _ _ => ok trivial

section Random

variable [RandomSource ρ]

omit [Scalar α] in
theorem length_drawExponentials [Scalar α] (k : Nat) (r : ρ) :
    (drawExponentials k r : List α × ρ).1.length = k := by
  induction k generalizing r with
  | zero => rfl
  | succ k ih => exact congrArg (· + 1) (ih _)

/-- There is one weight for each objective. -/
theorem length_drawWeights (run : Run α ρ) :
    run.drawWeights.1.length = run.objectives.length := by
  unfold drawWeights
  split
  · next hOne => exact hOne.symm
  · unfold normalize
    dsimp only
    split
    · rw [List.length_map, length_drawExponentials]
    · rw [List.length_replicate, length_drawExponentials]

variable {solution : Permutation} {vector : List α}

theorem confined_searchFrom (h : Shape objectives n run) (hSize : solution.size = n) :
    Confined (Foreseen objectives) (run.searchFrom solution vector) fun found =>
      run.searchFrom solution vector = .ok found := by
  refine Confined.known (Q := fun _ => True) ?_
  have hObjectives := h.objectives_eq
  have hLength := run.length_drawWeights
  have hDrawn := run.drawWeights_snd
  unfold searchFrom
  revert hLength hDrawn
  generalize run.drawWeights = drawn
  obtain ⟨weights, drawn⟩ := drawn
  intro hLength hDrawn
  dsimp only at hLength hDrawn ⊢
  rw [hDrawn]
  dsimp only
  rw [hObjectives] at hLength ⊢
  refine (WeightedSum.confined_ofObjectives h.nonempty hLength.symm).known.bind
    fun sum hSum => ?_
  have hHead := List.head?_eq_some_head h.nonempty
  -- the sum is as large as its first objective
  have hFits : solution.size = Landscape.size sum := by
    rw [hSize, ← h.sizes _ (List.head_mem h.nonempty)]
    exact (WeightedSum.size_ofObjectives hSum _ hHead).symm
  exact (confined_search run.search hSum hFits).bind fun _ _ => ok trivial

omit [RandomSource ρ] in
theorem confined_vectorOf (h : Shape objectives n run) (outcome : Tabu.Outcome α) :
    Confined (Foreseen objectives) (run.vectorOf outcome) fun found =>
      run.vectorOf outcome = .ok found := by
  refine Confined.known (Q := fun _ => True) ?_
  unfold vectorOf
  split
  · exact ok trivial
  · exact (confined_evaluate h _).imp fun _ _ => trivial

omit [RandomSource ρ] in
/-- The archive turns down only what is not finite. -/
theorem confined_insert {a : Pareto.Archive α} (hLength : vector.length = a.dimensions) :
    Confined (· = .nonFiniteObjective) (a.insert solution vector) fun _ => True := by
  have hVector : Confined (· = .nonFiniteObjective) (a.requireVector vector) fun _ => True := by
    unfold Pareto.Archive.requireVector Pareto.requireVector
    rw [if_neg (not_not_intro hLength)]
    split
    · exact ok trivial
    · exact fail rfl
  refine hVector.bind fun _ _ => ?_
  dsimp only
  split
  · split
    · exact ok trivial
    · exact ok trivial
  · exact ok trivial

/-- **Improving** a solution of the right size. -/
theorem confined_improve (h : Shape objectives n run) (hSize : solution.size = n) :
    Confined (Tolerable objectives) (run.improve solution vector) fun made =>
      run.improve solution vector = .ok made := by
  refine Confined.known (Q := fun _ => True) ?_
  -- the archive represents its roster, so it takes vectors of its own length
  obtain ⟨roster, hRepresents, -⟩ := h.archive
  unfold improve
  split
  · exact fail rfl
  · refine ((confined_searchFrom h hSize).lift fun _ h => h).bind ?_
    rintro ⟨outcome, searched⟩ hSearch
    obtain ⟨-, -, -, hChanges⟩ := exists_changes_of_searchFrom hSearch
    have hSearched : Shape objectives n searched := by
      rw [hChanges]
      exact { h with }
    refine ((confined_vectorOf hSearched outcome).lift fun _ h => h).bind ?_
    rintro ⟨found, booked⟩ hFound
    obtain ⟨hLength, -, -, hChanges'⟩ := exists_changes_of_vectorOf hFound
    have hFits : found.length = booked.archive.dimensions := by
      have hThere : booked.archive = run.archive := by rw [hChanges', hChanges]
      rw [hThere, hRepresents.dimensions, hLength, hSearched.objectives_eq]
    exact ((confined_insert hFits).mapError fun _ h => h).bind fun _ _ => ok trivial

/-- A solution that has been evaluated before is improved. -/
theorem confined_improving (h : Shape objectives n run) (hSize : solution.size = n)
    (hVector : evaluateAll run.objectives solution = .ok vector) :
    Confined (Tolerable objectives) (run.improve solution vector) fun made =>
      Action run made.2 ∧ ∃ i ∈ made.2.improved, i.member = made.1 := by
  refine (confined_improve h hSize).imp ?_
  rintro ⟨m, improved⟩ hImprove
  obtain ⟨i, hMember, hImproved⟩ := improved_of_improve hImprove
  refine ⟨.improve hVector hImprove, i, ?_, hMember⟩
  rw [hImproved.changes]
  exact List.mem_cons_self ..

/-- A solution that has just been evaluated is improved. -/
theorem confined_developing {evaluated : Run α ρ} (h : Shape objectives n run)
    (hSize : solution.size = n) (hEvaluate : run.evaluate solution = .ok (vector, evaluated)) :
    Confined (Tolerable objectives) (evaluated.improve solution vector) fun made =>
      Action run made.2 ∧ ∃ i ∈ made.2.improved, i.member = made.1 := by
  refine (confined_improve (h.evaluated hEvaluate) hSize).imp ?_
  rintro ⟨m, improved⟩ hImprove
  obtain ⟨i, hMember, hImproved⟩ := improved_of_improve hImprove
  refine ⟨.develop hEvaluate hImprove, i, ?_, hMember⟩
  rw [hImproved.changes]
  exact List.mem_cons_self ..

-- ---------------------------------------------------------------------------
-- Breeding
-- ---------------------------------------------------------------------------

omit [RandomSource ρ] in
theorem memberAt_succeeds {i : Nat} (hi : i < run.population.size) :
    run.memberAt i = .ok run.population[i] := by
  unfold memberAt
  rw [Array.getElem?_eq_getElem hi]

/-- **Two members have a child.** -/
theorem breed_succeeds (h : Shape objectives n run) (hTwo : 2 ≤ run.population.size) :
    ∃ child random, run.breed = .ok (child, { run with random }) ∧ child.size = n := by
  have hFitness : (run.population.map (·.fitness)).size = run.population.size := Array.size_map ..
  have hRivals : 2 ≤ (run.population.map (·.fitness)).size := hFitness ▸ hTwo
  obtain ⟨i, j, random, hParents, hi, hj, -⟩ :=
    Tournament.parents_succeeds hRivals run.settings.tournamentSize run.random
  rw [hFitness] at hi hj
  -- both parents have the size of the objectives
  have hFirst := (h.population _ (Array.getElem_mem hi)).size_eq
  have hSecond := (h.population _ (Array.getElem_mem hj)).size_eq
  have hSame := hFirst.trans hSecond.symm
  unfold breed
  dsimp only
  rw [hParents]
  show ∃ child random', (run.memberAt i >>= _) = _ ∧ _
  rw [memberAt_succeeds hi]
  show ∃ child random', (run.memberAt j >>= _) = _ ∧ _
  rw [memberAt_succeeds hj]
  -- both crossovers succeed on parents of one size
  cases run.settings.crossover with
  | partiallyMatched =>
    obtain ⟨child, hChild, hSize⟩ := Crossover.randomMatched_succeeds hSame
      (hFirst.symm ▸ h.positive) random
    refine ⟨child, (Crossover.randomMatched run.population[i].solution
      run.population[j].solution random).2, ?_, hSize.trans hFirst⟩
    dsimp only
    show (Crossover.randomMatched _ _ random).1 >>= _ = _
    rw [hChild]
    rfl
  | uniform =>
    obtain ⟨child, random', hChild, hSize, -⟩ := Crossover.uniform_succeeds hSame random
    refine ⟨child, random', ?_, hSize.trans hFirst⟩
    show Crossover.uniform _ _ random >>= _ = _
    rw [hChild]
    rfl

/-- A child is bred, evaluated and improved. -/
theorem confined_makeChild (h : Shape objectives n run) (hTwo : 2 ≤ run.population.size) :
    Confined (Tolerable objectives) run.makeChild fun made =>
      Acts run made.2 ∧ ∃ i ∈ made.2.improved, i.member = made.1 := by
  have hCount : Action run { run with iterations := run.iterations + 1 } :=
    .steer run.random _ run.stale run.round run.journal
  have hCounted : Shape objectives n { run with iterations := run.iterations + 1 } := { h with }
  obtain ⟨solution, random, hBreed, hSize⟩ := breed_succeeds hCounted hTwo
  have hBred : Acts run { run with iterations := run.iterations + 1, random } :=
    .single (.steer random _ run.stale run.round run.journal)
  have hShape : Shape objectives n { run with iterations := run.iterations + 1, random } :=
    { h with }
  refine Confined.bind_ok (congrArg liftM hBreed) ?_
  refine Confined.bind ((confined_evaluate hShape solution).lift fun _ h => h) ?_
  rintro ⟨vector, evaluated⟩ hEvaluate
  exact (confined_developing hShape hSize hEvaluate).imp fun _ ⟨hAction, hMember⟩ =>
    ⟨hBred.tail hAction, hMember⟩

-- ---------------------------------------------------------------------------
-- Mutating
-- ---------------------------------------------------------------------------

omit [RandomSource ρ] in
theorem confined_memberAt (h : Shape objectives n run) (i : Nat) :
    Confined (Foreseen objectives) (run.memberAt i) fun m => m.solution.size = n := by
  unfold memberAt
  split
  · next m hm => exact ok (h.population m (Array.mem_of_getElem? hm)).size_eq
  · exact fail (Or.inl rfl)

theorem confined_mutateMember (h : Shape objectives n run) (length i : Nat) :
    Confined (Tolerable objectives) (run.mutateMember length i) (Acts run) := by
  refine Confined.bind ((confined_memberAt h i).lift fun _ h => h) fun m hm => ?_
  have hSize := (Mutation.size_chain length m.solution run.random).trans hm
  revert hSize
  dsimp only
  generalize Mutation.chain length m.solution run.random = drawn
  obtain ⟨solution, random⟩ := drawn
  intro hSize
  have hDraw : Action run { run with random } :=
    .steer random run.iterations run.stale run.round run.journal
  have hDrawn : Shape objectives n { run with random } := { h with }
  refine Confined.bind ((confined_evaluate hDrawn solution).lift fun _ h => h) ?_
  rintro ⟨vector, evaluated⟩ hEvaluate
  refine (confined_developing hDrawn hSize hEvaluate).bind ?_
  rintro ⟨_, improved⟩ ⟨hAction, k, hk, rfl⟩
  have hCompare : Action improved (improved.updateBest k.member) := .compare hk
  have hReplace := Action.replace (hCompare.improved_subset hk) i
  exact ok ((((ReflTransGen.single hDraw).tail hAction).tail hCompare).tail hReplace)

variable [OrderedScalar α]

theorem confined_mutateMembers (h : Shape objectives n run) (length : Nat) (picked : List Nat) :
    Confined (Tolerable objectives) (run.mutateMembers length picked) (Acts run) := by
  induction picked generalizing run with
  | nil => exact ok .refl
  | cons i rest ih =>
    unfold mutateMembers
    split
    · exact ok .refl
    · refine (confined_mutateMember h length i).bind fun mutated hMutated => ?_
      exact (ih (h.acts hMutated)).imp fun _ hRest => hMutated.trans hRest

/-- **A refresh** mutates members or reseeds the population. -/
theorem confined_refresh (h : Shape objectives n run) :
    Confined (Tolerable objectives) run.refresh (Acts run) := by
  unfold refresh
  split
  · have hReseed : Acts run run.reseed := .single .reseed
    exact ok (hReseed.tail (.steer run.reseed.random run.reseed.iterations run.reseed.stale 0
      run.reseed.journal))
  · refine Confined.bind (Q := Acts run) ?_ fun mutated hMutated =>
      ok (hMutated.tail (.steer mutated.random mutated.iterations mutated.stale
        (mutated.round + 1) mutated.journal))
    have hDraw : ∀ random journal, Action run { run with random, journal } := fun random journal =>
      .steer random run.iterations run.stale run.round journal
    have hDrawn : ∀ (random : ρ) journal, Shape objectives n { run with random, journal } :=
      fun _ _ => { h with }
    exact (confined_mutateMembers (hDrawn _ _) _ _).imp fun _ hRest => .head (hDraw _ _) hRest

-- ---------------------------------------------------------------------------
-- Iterating
-- ---------------------------------------------------------------------------

omit [OrderedScalar α] in
/-- What becomes of a child, and of the population if it is stale. -/
def settle (run : Run α ρ) (child : Member α) : Except Failure (Run α ρ) := do
  let run := run.countChild child
  if run.settings.mutationFrequency ≤ run.stale then
    let run ← run.refresh
    return ({ run with stale := 0 }.updateBest child).offerElite child
  else
    return ((run.updateBest child).offerElite child).replaceWorst child

omit [OrderedScalar α] in
theorem iterate_eq (run : Run α ρ) :
    run.iterate = run.makeChild >>= fun made => made.2.settle made.1 := by
  unfold iterate makeChild
  dsimp only
  cases breed { run with iterations := run.iterations + 1 } with
  | error e => rfl
  | ok bred =>
    obtain ⟨solution, bred⟩ := bred
    show (liftM (bred.evaluate solution) >>= _ : Except Failure _) =
      (liftM (bred.evaluate solution) >>= _) >>= _
    cases bred.evaluate solution with
    | error e => rfl
    | ok evaluated => rfl

omit [RandomSource ρ] [OrderedScalar α] in
theorem countChild_changes (run : Run α ρ) (child : Member α) :
    ∃ stale round, run.countChild child = { run with stale, round } := by
  unfold countChild
  split
  · exact ⟨0, 0, rfl⟩
  · exact ⟨run.stale + 1, run.round, rfl⟩

omit [OrderedScalar α] in
theorem acts_replaceWorst {i : Improvement α} (hi : i ∈ run.improved) :
    Acts run (run.replaceWorst i.member) := by
  unfold replaceWorst
  split
  · exact .refl
  · split
    · next k _ => exact .single (.replace hi k)
    · exact .refl

/-- A child is counted. It is compared with the best and offered to the elites, and unless the
population is refreshed before, it may replace a member. -/
theorem confined_settle (h : Shape objectives n run) {i : Improvement α}
    (hi : i ∈ run.improved) :
    Confined (Tolerable objectives) (run.settle i.member) (Acts run) := by
  obtain ⟨stale, round, hCounted⟩ := run.countChild_changes i.member
  have hCount : Action run { run with stale, round } :=
    .steer run.random run.iterations stale round run.journal
  unfold settle
  rw [hCounted]
  dsimp only
  -- the population is due for a refreshment, or the child competes for a place
  split
  · refine (confined_refresh (h.action hCount)).bind fun refreshed hRefresh => ?_
    have hReset : Acts run { refreshed with stale := 0 } :=
      (ReflTransGen.head hCount hRefresh).tail (.steer refreshed.random refreshed.iterations 0
        refreshed.round refreshed.journal)
    have hCompare := Action.compare (hReset.improved_subset hi)
    have hOffer := Action.offer (hCompare.improved_subset (hReset.improved_subset hi))
    exact ok ((hReset.tail hCompare).tail hOffer)
  · have hCompare :
        Action { run with stale, round } ({ run with stale, round }.updateBest i.member) :=
      .compare hi
    have hOffer := Action.offer (hCompare.improved_subset hi)
    have hReplace := acts_replaceWorst (hOffer.improved_subset (hCompare.improved_subset hi))
    exact ok ((((ReflTransGen.single hCount).tail hCompare).tail hOffer).trans hReplace)

/-- **An iteration.** -/
theorem confined_iterate (h : Shape objectives n run) (hTwo : 2 ≤ run.population.size) :
    Confined (Tolerable objectives) run.iterate (Acts run) := by
  rw [iterate_eq]
  refine (confined_makeChild h hTwo).bind ?_
  rintro ⟨_, grown⟩ ⟨hGrown, i, hi, rfl⟩
  exact (confined_settle (h.acts hGrown) hi).imp fun _ hSettled => hGrown.trans hSettled

-- ---------------------------------------------------------------------------
-- Seeding
-- ---------------------------------------------------------------------------

/-- A member joins the population: the result of a local search, or a solution with a finite
vector. -/
inductive Joins (run : Run α ρ) : Run α ρ → Prop
  | intro {m : Member α} (hMember : (∃ i ∈ run.improved, i.member = m) ∨
      m.solution.size = run.size ∧ evaluateAll run.objectives m.solution = .ok m.vector ∧
        ∀ x ∈ m.vector, Scalar.isFinite x = true) :
      Joins run { run with population := run.population.push m }

omit [RandomSource ρ] [OrderedScalar α] in
/-- A member that joins is well-formed. -/
theorem Shape.joins (h : Shape objectives n run) (hJoins : Joins run run') :
    Shape objectives n run' := by
  obtain ⟨hMember⟩ := hJoins
  refine { h with population := fun x hx => ?_ }
  rcases Array.mem_push.mp hx with hBefore | rfl
  · exact h.population x hBefore
  · rcases hMember with ⟨i, hi, rfl⟩ | ⟨hSize, hVector, hFinite⟩
    · exact h.improved i hi
    · refine wellFormed_of_size (hSize.trans h.size_eq) ?_ hFinite
      exact h.objectives_eq ▸ evaluateAll_length hVector

/-- A seed of a run: a solution of the right size, with its vector. -/
structure IsSeed (objectives : List (Objective α)) (n : Nat) (start : Member α) : Prop where
  size : start.solution.size = n
  vector : evaluateAll objectives start.solution = .ok start.vector

/-- A seed enters the population: it is improved, the result is compared with the best and offered
to the elites, and then a member joins. -/
inductive Enters (run : Run α ρ) (start : Member α) : Run α ρ → Prop
  | intro {improved next : Run α ρ} {i : Improvement α}
      (hVector : evaluateAll run.objectives start.solution = .ok start.vector)
      (hImprove : run.improve start.solution start.vector = .ok (i.member, improved))
      (hi : i ∈ improved.improved)
      (hJoins : Joins ((improved.updateBest i.member).offerElite i.member) next) :
      Enters run start next

namespace Enters

variable {start : Member α} {next : Run α ρ}

omit [OrderedScalar α] in
theorem acts (h : run.Enters start next) : ∃ mid, Acts run mid ∧ Joins mid next := by
  obtain ⟨hVector, hImprove, hi, hJoins⟩ := h
  have hCompare := Action.compare hi
  have hOffer := Action.offer (hCompare.improved_subset hi)
  exact ⟨_, ((ReflTransGen.single (.improve hVector hImprove)).tail hCompare).tail hOffer, hJoins⟩

omit [OrderedScalar α] in
/-- A seed that has entered was checked. -/
theorem finite (h : run.Enters start next) : ∀ x ∈ start.vector, Scalar.isFinite x = true := by
  obtain ⟨-, hImprove, -, -⟩ := h
  obtain ⟨_, -, hImproved⟩ := improved_of_improve hImprove
  exact hImproved.start

end Enters

omit [OrderedScalar α] in
/-- **A seed** is admitted. -/
theorem confined_admitSeed (h : Shape objectives n run) {start : Member α}
    (hSeed : IsSeed objectives n start) :
    Confined (Tolerable objectives) (run.admitSeed start) (run.Enters start) := by
  have hVector : evaluateAll run.objectives start.solution = .ok start.vector :=
    h.objectives_eq.symm ▸ hSeed.vector
  unfold admitSeed
  refine ((confined_improve h hSeed.size).and fun made hMade =>
    (confined_improving h hSeed.size hVector).result made hMade).bind ?_
  rintro ⟨_, improved⟩ ⟨hImprove, hAction, i, hi, rfl⟩
  have hCompare := Action.compare hi
  have hOffer := Action.offer (hCompare.improved_subset hi)
  refine ok (.intro hVector hImprove hi (.intro ?_))
  split
  · obtain ⟨_, -, hImproved⟩ := improved_of_improve hImprove
    have hActs : Acts run ((improved.updateBest i.member).offerElite i.member) :=
      ((ReflTransGen.single hAction).tail hCompare).tail hOffer
    obtain ⟨hObjectives, -, hSize, -⟩ := hActs.fixed
    refine Or.inr ⟨?_, ?_, hImproved.start⟩
    · exact hSeed.size.trans (h.size_eq.symm.trans hSize.symm)
    · rw [hObjectives]
      exact hVector
  · exact Or.inl ⟨i, hOffer.improved_subset (hCompare.improved_subset hi), rfl⟩

end Random

end Run

end Memetic

end SwapSearch
