import SwapSearch.Proofs.Memetic.Books

/-!
# SwapSearch — the steps of a run

A run admits its seeds, and then every iteration makes a child, may mutate members of the
population, and settles the child. All this is put together from what `Books` deals with,
and the relations here say how, in terms of the books alone. To show that a run preserves
something it is enough to show it for one member being improved, compared and offered: that
is an `Invariant`.

Asking is part of these relations: only the first seed is improved without asking whether
the budget is exhausted, because its evaluation has been charged with the batch.

## Results

* `improves_of_improving` — what improving does.
* `SeedInvariant.seeds`   — what improving and settling preserve holds after seeding.
* `Invariant.iterates`    — what a mutant and a child preserve, an iteration preserves.
* `seeds_of_seed`         — the seeds are admitted one by one.
* `mutates_of_refresh`    — a refresh is a sequence of mutations.
* `iterates_of_iterate`   — an iteration: a child, mutants perhaps, the settlement.
-/

namespace SwapSearch.Memetic

open Relation

-- ---------------------------------------------------------------------------
-- Seeds, mutants and children
-- ---------------------------------------------------------------------------

namespace Books

variable {α : Type} [Scalar α] (ρ : Type) [RandomSource ρ]

/-- A run with the books `b` improves a solution that it has evaluated. The member `m` is the
result, and `b'` are the books afterwards. -/
def Improving (b : Books α) (m : Member α) (b' : Books α) : Prop :=
  ∃ (run run' : Run α ρ) (solution : Permutation) (vector : List α), run.books = b ∧
    evaluateAll b.objectives solution = .ok vector ∧
    run.improve solution vector = .ok (m, run') ∧ run'.books = b'

/-- A seed is improved, compared with the best and offered to the elites. -/
inductive Admits (b : Books α) : Books α → Prop
  | intro {m : Member α} {b' : Books α} (hImproving : Improving ρ b m b') :
      Admits b ((b'.compare m).offer m)

/-- A seed is admitted after asking. -/
def AdmitsNext (b b' : Books α) : Prop := b.budget.isExhausted = false ∧ Admits ρ b b'

/-- A mutant is evaluated, improved and compared with the best, after asking. -/
inductive Mutates (b : Books α) : Books α → Prop
  | intro {m : Member α} {b' : Books α} (hOpen : b.budget.isExhausted = false)
      (hImproving : Improving ρ (b.charge 1) m b') : Mutates b (b'.compare m)

/-- A child is evaluated and improved. It is compared with the best and offered to the elites after
any mutants there may be. -/
inductive Iterates (b : Books α) (child : Member α) : Books α → Prop
  | intro {grown refreshed : Books α}
      (hChild : Improving ρ ({ b with iterations := b.iterations + 1 }.charge 1) child grown)
      (hRefresh : ReflTransGen (Mutates ρ) grown refreshed) :
      Iterates b child ((refreshed.compare child).offer child)

variable {ρ} {b b' : Books α} {m : Member α}

theorem improves_of_improving (h : Improving ρ b m b') :
    ∃ i, i.member = m ∧ b.Improves i b' := by
  obtain ⟨run, run', solution, vector, rfl, -, hImprove, rfl⟩ := h
  obtain ⟨i, -, -, hMember, -, -, hImproves⟩ := Run.improves_of_improve hImprove
  exact ⟨i, hMember, hImproves⟩

omit [RandomSource ρ] in
@[simp] theorem objectives_compare : (b.compare m).objectives = b.objectives := by
  unfold compare
  split <;> rfl

omit [RandomSource ρ] in
@[simp] theorem elites_compare : (b.compare m).elites = b.elites := by
  unfold compare
  split <;> rfl

omit [RandomSource ρ] in
@[simp] theorem improved_compare : (b.compare m).improved = b.improved := by
  unfold compare
  split <;> rfl

theorem Improving.objectives_eq (h : Improving ρ b m b') : b'.objectives = b.objectives := by
  obtain ⟨i, -, hImproves⟩ := improves_of_improving h
  obtain ⟨spent, outlook, -, -, rfl⟩ := hImproves.books
  rfl

theorem Admits.objectives_eq (h : Admits ρ b b') : b'.objectives = b.objectives := by
  obtain ⟨hImproving⟩ := h
  exact objectives_compare.trans hImproving.objectives_eq

/-- What is preserved while seeding. `pending` are the members that have not been compared with the
best yet, and `offers` those that have been offered to the elites, both newest first. -/
structure SeedInvariant (ρ : Type) [RandomSource ρ]
    (P : (pending offers : List (Member α)) → Books α → Prop) : Prop where
  improve : ∀ {pending offers b m b'}, b.budget.isExhausted = false → P pending offers b →
    Improving ρ b m b' → P (m :: pending) offers b'
  settle : ∀ {offers b m}, P [m] offers b → P [] (m :: offers) ((b.compare m).offer m)

/-- What is preserved throughout. -/
structure Invariant (ρ : Type) [RandomSource ρ]
    (P : (pending offers : List (Member α)) → Books α → Prop) : Prop extends
    SeedInvariant ρ P where
  count : ∀ {pending offers b}, P pending offers b →
    P pending offers { b with iterations := b.iterations + 1 }
  evaluate : ∀ {pending offers b m b'}, b.budget.isExhausted = false → P pending offers b →
    Improving ρ (b.charge 1) m b' → P (m :: pending) offers b'
  compare : ∀ {pending offers b m}, P (m :: pending) offers b → P pending offers (b.compare m)

variable {P : (pending offers : List (Member α)) → Books α → Prop} {offers : List (Member α)}

/-- **Seeding.** The first seed is improved without asking, so it has a hypothesis of its own. -/
theorem SeedInvariant.seeds {opened first : Books α} (h : SeedInvariant ρ P)
    (hOpened : ∀ {m b'}, Improving ρ opened m b' → P [m] [] b')
    (hFirst : Admits ρ opened first) (hRest : ReflTransGen (AdmitsNext ρ) first b) :
    ∃ seeds, P [] seeds b := by
  induction hRest with
  | refl =>
    obtain ⟨hImproving⟩ := hFirst
    exact ⟨_, h.settle (hOpened hImproving)⟩
  | tail _ hLast ih =>
    obtain ⟨seeds, ih⟩ := ih
    obtain ⟨hOpen, ⟨hImproving⟩⟩ := hLast
    exact ⟨_, h.settle (h.improve hOpen ih hImproving)⟩

/-- **An iteration.** The child is pending while the mutants are compared. -/
theorem Invariant.iterates (h : Invariant ρ P) (hOpen : b.budget.isExhausted = false)
    (hBooks : P [] offers b) (hIterates : Iterates ρ b m b') : P [] (m :: offers) b' := by
  obtain @⟨grown, refreshed, hChild, hRefresh⟩ := hIterates
  have hRefreshed : P [m] offers refreshed := by
    induction hRefresh with
    | refl =>
      exact h.evaluate (b := { b with iterations := b.iterations + 1 }) hOpen (h.count hBooks)
        hChild
    | tail _ hLast ih =>
      obtain ⟨hLeft, hImproving⟩ := hLast
      exact h.compare (h.evaluate hLeft ih hImproving)
  exact h.settle hRefreshed

end Books

namespace Run

open Books

variable {α ρ : Type} [Scalar α] [RandomSource ρ] {run run' : Run α ρ}

-- ---------------------------------------------------------------------------
-- Seeding
-- ---------------------------------------------------------------------------

theorem admits_of_admitSeed {start : Member α}
    (hVector : evaluateAll run.objectives start.solution = .ok start.vector)
    (h : run.admitSeed start = .ok run') : Admits ρ run.books run'.books := by
  obtain ⟨⟨improved, searched⟩, hImprove, h⟩ := exists_of_bind_ok h
  obtain rfl := Except.ok.inj h
  have hBooks := searched.books_updateBest improved
  have hImproving : Improving ρ run.books improved searched.books :=
    ⟨run, searched, _, _, rfl, hVector, hImprove, rfl⟩
  have hAdmits := Admits.intro hImproving
  rw [← hBooks] at hAdmits
  exact hAdmits

/-- A seed is admitted, and the next ones if there is budget left. -/
theorem exists_of_admitSeeds {start : Member α} {rest : List (Member α)}
    (h : run.admitSeeds (start :: rest) = .ok run') :
    ∃ admitted, run.admitSeed start = .ok admitted ∧
      (run'.books = admitted.books ∨ ∃ asked : Run α ρ, asked.books = admitted.books ∧
        asked.budget.isExhausted = false ∧ asked.admitSeeds rest = .ok run') := by
  obtain ⟨admitted, hAdmit, h⟩ := exists_of_bind_ok h
  refine ⟨admitted, hAdmit, ?_⟩
  have hBooks := admitted.books_stopReason
  cases hAsk : admitted.stopReason with
  | mk reason asked =>
    rw [hAsk] at h hBooks
    cases reason with
    | some _ =>
      obtain rfl := Except.ok.inj h
      exact Or.inl hBooks
    | none => exact Or.inr ⟨asked, hBooks, isExhausted_of_stopReason hAsk, h⟩

/-- Seeds admitted after asking. -/
theorem admits_of_admitSeeds {seeds : List (Member α)} (hOpen : run.budget.isExhausted = false)
    (hVectors : ∀ start ∈ seeds, evaluateAll run.objectives start.solution = .ok start.vector)
    (h : run.admitSeeds seeds = .ok run') :
    ReflTransGen (AdmitsNext ρ) run.books run'.books := by
  induction seeds generalizing run with
  | nil =>
    obtain rfl := Except.ok.inj h
    exact .refl
  | cons start rest ih =>
    obtain ⟨hHere, hRest⟩ := List.forall_mem_cons.mp hVectors
    obtain ⟨admitted, hAdmit, hNext⟩ := exists_of_admitSeeds h
    have hAdmits := admits_of_admitSeed hHere hAdmit
    rcases hNext with hStop | ⟨asked, hBooks, hAsked, hGo⟩
    · exact hStop ▸ .single ⟨hOpen, hAdmits⟩
    · have hSame : asked.objectives = run.objectives :=
        (congrArg Books.objectives hBooks).trans hAdmits.objectives_eq
      exact .head ⟨hOpen, hAdmits⟩ (hBooks ▸ ih hAsked (hSame ▸ hRest) hGo)

/-- The first seed is admitted in any case, the others after asking. -/
theorem seeds_of_admitSeeds {start : Member α} {rest : List (Member α)}
    (hVectors : ∀ seed ∈ start :: rest,
      evaluateAll run.objectives seed.solution = .ok seed.vector)
    (h : run.admitSeeds (start :: rest) = .ok run') :
    ∃ first, Admits ρ run.books first ∧ ReflTransGen (AdmitsNext ρ) first run'.books := by
  obtain ⟨hHere, hRest⟩ := List.forall_mem_cons.mp hVectors
  obtain ⟨admitted, hAdmit, hNext⟩ := exists_of_admitSeeds h
  have hAdmits := admits_of_admitSeed hHere hAdmit
  refine ⟨admitted.books, hAdmits, ?_⟩
  rcases hNext with hStop | ⟨asked, hBooks, hAsked, hGo⟩
  · exact hStop ▸ .refl
  · have hSame : asked.objectives = run.objectives :=
      (congrArg Books.objectives hBooks).trans hAdmits.objectives_eq
    exact hBooks ▸ admits_of_admitSeeds hAsked (hSame ▸ hRest) hGo

omit [Scalar α] in
theorem length_drawPermutations (n k : Nat) (r : ρ) :
    (drawPermutations n k r).1.length = k := by
  induction k generalizing r with
  | zero => rfl
  | succ k ih => exact congrArg (· + 1) (ih _)

omit [RandomSource ρ] in
/-- The drawn solutions and their vectors belong together. -/
theorem vector_of_mem_seeds {objectives : List (Objective α)} {seeds : List Permutation}
    {vectors : List (List α)}
    (h : List.Forall₂ (fun p v => evaluateAll objectives p = .ok v) seeds vectors) :
    ∀ start ∈ List.zipWith Member.ofVector seeds vectors,
      evaluateAll objectives start.solution = .ok start.vector := by
  induction h with
  | nil => exact fun _ hStart => nomatch hStart
  | cons hHead _ ih => exact List.forall_mem_cons.mpr ⟨hHead, ih⟩

/-- **Seeding.** The batch is charged before any seed is admitted. -/
theorem seeds_of_seed (hPopulation : 1 ≤ run.settings.populationSize)
    (h : run.seed = .ok run') :
    ∃ first, Admits ρ (run.books.charge run.settings.populationSize) first ∧
      ReflTransGen (AdmitsNext ρ) first run'.books := by
  have hCount := length_drawPermutations run.size run.settings.populationSize run.random
  unfold seed at h
  revert h hCount
  generalize drawPermutations run.size run.settings.populationSize run.random = drawn
  obtain ⟨seeds, random⟩ := drawn
  intro h hCount
  obtain ⟨vectors, hVectors, h⟩ := exists_of_bind_ok h
  obtain ⟨charged, hCharge, h⟩ := exists_of_bind_ok h
  have hBooks := books_of_charge (ok_of_liftM_breach hCharge)
  have hCharged : charged.books = run.books.charge run.settings.populationSize := by
    rw [hBooks, ← hCount]
    rfl
  have hObjectives : charged.objectives = run.objectives := congrArg Books.objectives hCharged
  have hPairs := forall₂_of_mapM (ok_of_liftM_breach hVectors)
  have hMembers := vector_of_mem_seeds hPairs
  -- there is a seed for each member that is wanted, hence at least one
  have hLength : (List.zipWith Member.ofVector seeds vectors).length =
      run.settings.populationSize := by
    rw [List.length_zipWith, ← hPairs.length_eq, Nat.min_self]
    exact hCount
  cases hSeeds : List.zipWith Member.ofVector seeds vectors with
  | nil =>
    rw [hSeeds] at hLength
    exact absurd hPopulation (hLength ▸ Nat.not_succ_le_zero 0)
  | cons start rest =>
    rw [hSeeds, ← hObjectives] at hMembers
    rw [hSeeds] at h
    exact hCharged ▸ seeds_of_admitSeeds hMembers h

-- ---------------------------------------------------------------------------
-- Mutating
-- ---------------------------------------------------------------------------

theorem mutates_of_mutateMember {length i : Nat} (hOpen : run.budget.isExhausted = false)
    (h : run.mutateMember length i = .ok run') : Mutates ρ run.books run'.books := by
  obtain ⟨m, -, h⟩ := exists_of_bind_ok h
  obtain ⟨⟨vector, evaluated⟩, hEvaluate, h⟩ := exists_of_bind_ok h
  obtain ⟨⟨mutant, improved⟩, hImprove, h⟩ := exists_of_bind_ok h
  obtain rfl := Except.ok.inj h
  obtain ⟨hVector, hBooks⟩ := books_of_evaluate (ok_of_liftM_breach hEvaluate)
  have hEvaluated : evaluated.books = run.books.charge 1 := hBooks
  have hImproving : Improving ρ (run.books.charge 1) mutant improved.books :=
    ⟨evaluated, improved, _, _, hEvaluated, hVector, hImprove, rfl⟩
  have hMutates := Mutates.intro hOpen hImproving
  rw [← improved.books_updateBest mutant] at hMutates
  exact hMutates

theorem mutates_of_mutateMembers {length : Nat} {picked : List Nat}
    (h : run.mutateMembers length picked = .ok run') :
    ReflTransGen (Mutates ρ) run.books run'.books := by
  induction picked generalizing run with
  | nil =>
    obtain rfl := Except.ok.inj h
    exact .refl
  | cons i rest ih =>
    unfold mutateMembers at h
    split at h
    · obtain rfl := Except.ok.inj h
      exact .refl
    · next hOpen =>
      obtain ⟨mutated, hMutate, h⟩ := exists_of_bind_ok h
      exact .head (mutates_of_mutateMember (Bool.eq_false_iff.mpr hOpen) hMutate) (ih h)

/-- **A refresh** mutates members, or none at all. -/
theorem mutates_of_refresh (h : run.refresh = .ok run') :
    ReflTransGen (Mutates ρ) run.books run'.books := by
  unfold refresh at h
  split at h
  · obtain rfl := Except.ok.inj h
    exact .refl
  · obtain ⟨mutated, hMutate, h⟩ := exists_of_bind_ok h
    obtain rfl := Except.ok.inj h
    unfold mutate at hMutate
    dsimp only at hMutate
    have hMutates := mutates_of_mutateMembers hMutate
    exact hMutates

-- ---------------------------------------------------------------------------
-- Iterating
-- ---------------------------------------------------------------------------

/-- The child of an iteration, improved, and the run as it is then. -/
def makeChild (run : Run α ρ) : Except Failure (Member α × Run α ρ) := do
  let (solution, run) ← { run with iterations := run.iterations + 1 }.breed
  let (vector, run) ← run.evaluate solution
  run.improve solution vector

/-- An iteration makes a child and goes on from there. -/
theorem exists_of_iterate (h : run.iterate = .ok run') :
    ∃ child grown, run.makeChild = .ok (child, grown) ∧
      ∃ refreshed, ReflTransGen (Mutates ρ) grown.books refreshed ∧
        run'.books = (refreshed.compare child).offer child := by
  obtain ⟨⟨solution, bred⟩, hBreed, h⟩ := exists_of_bind_ok h
  obtain ⟨⟨vector, evaluated⟩, hEvaluate, h⟩ := exists_of_bind_ok h
  obtain ⟨⟨child, grown⟩, hImprove, h⟩ := exists_of_bind_ok h
  -- making a child is the first part of the iteration
  have hMade : run.makeChild = .ok (child, grown) := by
    unfold makeChild
    rw [hBreed]
    show ((liftM (bred.evaluate solution) : Except Failure _) >>= _) = _
    rw [hEvaluate]
    exact hImprove
  have hCounted := grown.books_countChild child
  refine ⟨child, grown, hMade, ?_⟩
  dsimp only at h
  -- the population is refreshed, or the child competes for a place
  split at h
  · obtain ⟨refreshed, hRefresh, h⟩ := exists_of_bind_ok h
    obtain rfl := Except.ok.inj h
    refine ⟨refreshed.books, hCounted ▸ mutates_of_refresh hRefresh, ?_⟩
    rw [books_offerElite, books_updateBest]
    rfl
  · obtain rfl := Except.ok.inj h
    refine ⟨grown.books, .refl, ?_⟩
    rw [books_replaceWorst, books_offerElite, books_updateBest, hCounted]

theorem improving_of_makeChild {child : Member α} {grown : Run α ρ}
    (h : run.makeChild = .ok (child, grown)) :
    Improving ρ ({ run.books with iterations := run.iterations + 1 }.charge 1) child
      grown.books := by
  obtain ⟨⟨solution, bred⟩, hBreed, h⟩ := exists_of_bind_ok h
  obtain ⟨⟨vector, evaluated⟩, hEvaluate, h⟩ := exists_of_bind_ok h
  have hBred := books_of_breed (ok_of_liftM_breach hBreed)
  obtain ⟨hVector, hBooks⟩ := books_of_evaluate (ok_of_liftM_breach hEvaluate)
  have hObjectives : bred.objectives = run.objectives := congrArg Books.objectives hBred
  refine ⟨evaluated, grown, solution, vector, ?_, ?_, h, rfl⟩
  · rw [hBooks, hBred]
    rfl
  · show evaluateAll run.objectives solution = .ok vector
    rw [← hObjectives]
    exact hVector

/-- **An iteration.** -/
theorem iterates_of_iterate {child : Member α} {grown : Run α ρ}
    (hChild : run.makeChild = .ok (child, grown)) (h : run.iterate = .ok run') :
    Iterates ρ run.books child run'.books := by
  obtain ⟨child', grown', hMade, refreshed, hRefresh, hBooks⟩ := exists_of_iterate h
  obtain ⟨rfl, rfl⟩ := Prod.mk.inj (Except.ok.inj (hMade.symm.trans hChild))
  rw [hBooks]
  exact .intro (improving_of_makeChild hChild) hRefresh

end Run

end SwapSearch.Memetic
