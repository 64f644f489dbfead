import SwapSearch.Proofs.Memetic.Loop
import SwapSearch.Proofs.Pareto.Front
import SwapSearch.Proofs.Tabu.Accuracy

/-!
# SwapSearch — what a memetic run has found

Of all that a run keeps, four things say what it has found: the objectives, the
archive, the best member and the list of local searches. They are the run's
`chronicle`. Of all that writes the books only two operations write it: improving a
solution adds a local search and offers its result to the archive, and updating the best
compares it with one member.

An iteration does not compare a child with the best at once: the population may be
mutated first, and the mutants come before the child. The invariant `Chronicled`
therefore names the members that are still `pending`.

## Results

* `chronicled_improving` — a local search adds a pending member.
* `Chronicled.compare`   — a comparison settles one.
* `chronicled_invariant` — all steps keep the chronicle.
* `chronicled_optimize`  — a run leaves nothing pending.
-/

namespace SwapSearch.Memetic

-- ---------------------------------------------------------------------------
-- The chronicle
-- ---------------------------------------------------------------------------

/-- The objectives of a run and what it has found. -/
structure Chronicle (α : Type) where
  objectives : List (Objective α)
  archive : Pareto.Archive α
  best : Member α
  improved : List (Improvement α)

namespace Chronicle

variable {α : Type} [Scalar α]

/-- A local search has been made, and its result has been offered to the archive. -/
def extend (g : Chronicle α) (i : Improvement α) : Chronicle α :=
  { g with archive := (g.archive.offered i.entry).2, improved := i :: g.improved }

/-- A member has been compared with the best. -/
def compare (g : Chronicle α) (m : Member α) : Chronicle α :=
  if g.best.fitness < m.fitness then { g with best := m } else g

end Chronicle

def Run.chronicle {α ρ : Type} [Scalar α] (run : Run α ρ) : Chronicle α :=
  ⟨run.objectives, run.archive, run.best, run.improved⟩

namespace Books

variable {α : Type} [Scalar α]

/-- The chronicle is in the books. -/
def chronicle (b : Books α) : Chronicle α := ⟨b.objectives, b.archive, b.best, b.improved⟩

theorem chronicle_compare (b : Books α) (m : Member α) :
    (b.compare m).chronicle = b.chronicle.compare m := by
  unfold compare Chronicle.compare
  show _ = if b.best.fitness < m.fitness then _ else _
  split <;> rfl

/-- A local search extends the chronicle by itself. -/
theorem Improves.chronicle_eq {b b' : Books α} {i : Improvement α} (h : b.Improves i b') :
    b'.chronicle = b.chronicle.extend i := by
  obtain ⟨spent, outlook, -, -, rfl⟩ := h.books
  rfl

end Books

-- ---------------------------------------------------------------------------
-- The invariant
-- ---------------------------------------------------------------------------

/-- The member is made of what the local search returned, a solution of the size of the objectives,
with its vector. -/
structure Made {α : Type} [Scalar α] (objectives : List (Objective α)) (i : Improvement α) :
    Prop where
  size : ∀ o ∈ objectives.head?, i.outcome.solution.size = o.size
  member : i.member = Member.ofVector i.outcome.solution i.member.vector
  vector : evaluateAll objectives i.outcome.solution = .ok i.member.vector

/-- At least `least` local searches have been made. The archive, which was `a₀`, has been offered
all their results, and the best member is one of them that no other beats, except perhaps those
that are pending. -/
structure Chronicled {α : Type} [Scalar α] (objectives : List (Objective α))
    (a₀ : Pareto.Archive α) (least : Nat) (pending : List (Member α)) (g : Chronicle α) :
    Prop where
  objectives_eq : g.objectives = objectives
  count : least ≤ g.improved.length
  made : ∀ i ∈ g.improved, Made objectives i
  archive_eq : g.archive = (a₀.run (g.improved.reverse.map Improvement.entry)).2
  best : g.best.fitness = Scalar.negInf ∨ ∃ i ∈ g.improved, g.best = i.member
  waiting : ∀ m ∈ pending, ∃ i ∈ g.improved, m = i.member
  settled : ∀ i ∈ g.improved, i.member ∈ pending ∨ i.member.fitness ≤ g.best.fitness

/-- A history that goes on for one more offer. -/
theorem run_concat {α : Type} [Scalar α] (a : Pareto.Archive α) (offers : List (Pareto.Entry α))
    (e : Pareto.Entry α) : (a.run (offers ++ [e])).2 = ((a.run offers).2.offered e).2 := by
  induction offers generalizing a with
  | nil => rfl
  | cons head rest ih => exact ih (a.offered head).2

namespace Chronicled

variable {α : Type} [ExactScalar α] {objectives : List (Objective α)} {a₀ : Pareto.Archive α}
  {least : Nat} {pending : List (Member α)} {g : Chronicle α}

theorem weaken {fewer : Nat} (hFewer : fewer ≤ least)
    (h : Chronicled objectives a₀ least pending g) :
    Chronicled objectives a₀ fewer pending g :=
  { h with count := Nat.le_trans hFewer h.count }

/-- A local search adds a pending member. -/
theorem extend {i : Improvement α} (h : Chronicled objectives a₀ least pending g)
    (hMade : Made objectives i) :
    Chronicled objectives a₀ (least + 1) (i.member :: pending) (g.extend i) where
  objectives_eq := h.objectives_eq
  count := Nat.succ_le_succ h.count
  made := List.forall_mem_cons.mpr ⟨hMade, h.made⟩
  archive_eq := by
    show (g.archive.offered i.entry).2 = (a₀.run ((i :: g.improved).reverse.map _)).2
    rw [List.reverse_cons, List.map_append, List.map_singleton, run_concat,
      ← h.archive_eq]
  best := h.best.imp_right fun ⟨k, hk, hEq⟩ => ⟨k, List.mem_cons_of_mem _ hk, hEq⟩
  waiting := by
    refine List.forall_mem_cons.mpr ⟨⟨i, List.mem_cons_self .., rfl⟩, fun m hm => ?_⟩
    obtain ⟨k, hk, hEq⟩ := h.waiting m hm
    exact ⟨k, List.mem_cons_of_mem _ hk, hEq⟩
  settled := by
    refine List.forall_mem_cons.mpr ⟨Or.inl (List.mem_cons_self ..), fun k hk => ?_⟩
    exact (h.settled k hk).imp_left (List.mem_cons_of_mem _)

/-- A comparison with the best settles a pending member. -/
theorem compare {m : Member α} (h : Chronicled objectives a₀ least (m :: pending) g) :
    Chronicled objectives a₀ least pending (g.compare m) := by
  obtain ⟨hHere, hWaiting⟩ := List.forall_mem_cons.mp h.waiting
  unfold Chronicle.compare
  split
  · next hLt =>
    -- what was settled before is below the new best as well
    refine ⟨h.objectives_eq, h.count, h.made, h.archive_eq, Or.inr hHere, hWaiting,
      fun i hi => ?_⟩
    rcases h.settled i hi with hMem | hLe
    · rcases List.mem_cons.mp hMem with hEq | hMem
      · exact Or.inr (le_of_eq (congrArg Member.fitness hEq))
      · exact Or.inl hMem
    · exact Or.inr (hLe.trans hLt.le)
  · next hNot =>
    refine ⟨h.objectives_eq, h.count, h.made, h.archive_eq, h.best, hWaiting, fun i hi => ?_⟩
    rcases h.settled i hi with hMem | hLe
    · rcases List.mem_cons.mp hMem with hEq | hMem
      · rw [hEq]
        exact Or.inr (not_lt.mp hNot)
      · exact Or.inl hMem
    · exact Or.inr hLe

end Chronicled

-- ---------------------------------------------------------------------------
-- Improving
-- ---------------------------------------------------------------------------

section Invariant

variable {α ρ : Type} [ExactScalar α] {objectives : List (Objective α)} {a₀ : Pareto.Archive α}
  {least : Nat} {pending : List (Member α)} {run run' : Run α ρ}

omit [ExactScalar α] in
theorem evaluateAll_single {o : Objective α} {solution : Permutation} {vector : List α} :
    evaluateAll [o] solution = .ok vector ↔
      ∃ v, o.evaluate solution.values = .ok v ∧ vector = [v] := by
  unfold evaluateAll
  rw [List.mapM_cons, List.mapM_nil]
  cases o.evaluate solution.values with
  | error e => exact ⟨fun h => (nomatch h), fun ⟨_, h, _⟩ => (nomatch h)⟩
  | ok v =>
    constructor
    · intro h
      exact ⟨v, rfl, (Except.ok.inj h).symm⟩
    · rintro ⟨v', hv, rfl⟩
      obtain rfl := Except.ok.inj hv
      rfl

variable [RandomSource ρ] {solution : Permutation} {vector : List α} {m : Member α}

/-- A local search returns a solution of the size of the objectives. -/
theorem size_of_searchFrom {outcome : Tabu.Outcome α}
    (h : run.searchFrom solution vector = .ok (outcome, run')) :
    ∀ o ∈ run.objectives.head?, outcome.solution.size = o.size := by
  intro o ho
  obtain ⟨sum, context, rest, hSum, hLandscape, -, -, hImprove, -⟩ := Run.exists_of_searchFrom h
  rw [Tabu.Search.size_of_improve hImprove, hLandscape]
  exact WeightedSum.size_ofObjectives hSum o ho

/-- With a single objective the value that a local search returns is that of its solution. -/
theorem value_of_searchFrom {o : Objective α} {outcome : Tabu.Outcome α}
    (hContract : ∃ f, HonoursGains f o) (hObjectives : run.objectives = [o])
    (hVector : evaluateAll [o] solution = .ok vector)
    (h : run.searchFrom solution vector = .ok (outcome, run')) :
    evaluateAll [o] outcome.solution = .ok [outcome.value] := by
  obtain ⟨f, hContract⟩ := hContract
  obtain ⟨v, hv, rfl⟩ := evaluateAll_single.mp hVector
  obtain ⟨sum, context, rest, hSum, hLandscape, -, -, hImprove, -⟩ := Run.exists_of_searchFrom h
  have hDraw : run.drawWeights = ([1], run) := if_pos (by rw [hObjectives]; rfl)
  rw [hObjectives, hDraw] at hSum
  rw [WeightedSum.combine_single hSum] at hImprove
  have hStart : Landscape.evaluate context.landscape solution.values = .ok v :=
    hLandscape ▸ (WeightedSum.evaluate_single hSum solution.values).trans hv
  have hBest := Tabu.bestVisited_of_improve
    (hLandscape ▸ WeightedSum.honoursGains_single hSum hContract) hStart hImprove
  refine evaluateAll_single.mpr ⟨outcome.value, ?_, rfl⟩
  rw [← WeightedSum.evaluate_single hSum, ← hLandscape]
  exact hBest.value

/-- The vector made of an outcome is that of its solution. -/
theorem evaluateAll_of_vectorOf {outcome : Tabu.Outcome α} {searched : Run α ρ}
    (hContract : ∀ o ∈ run.objectives, ∃ f, HonoursGains f o)
    (hVector : evaluateAll run.objectives solution = .ok vector)
    (hSearch : run.searchFrom solution vector = .ok (outcome, searched)) {found : List α}
    (h : searched.vectorOf outcome = .ok (found, run')) :
    evaluateAll run.objectives outcome.solution = .ok found := by
  obtain ⟨-, spent, outlook, -, -, hBooks⟩ := Run.draws_of_searchFrom hSearch
  have hSame : searched.objectives = run.objectives := congrArg Books.objectives hBooks
  unfold Run.vectorOf at h
  split at h
  · next hOne =>
    obtain ⟨rfl, rfl⟩ := Prod.mk.inj (Except.ok.inj h)
    rw [hSame] at hOne
    obtain ⟨o, hObjectives⟩ := List.length_eq_one_iff.mp hOne
    rw [hObjectives] at hContract hVector ⊢
    exact value_of_searchFrom (hContract o (by simp)) hObjectives hVector hSearch
  · obtain ⟨hFound, -⟩ := Run.books_of_evaluate h
    rwa [hSame] at hFound

variable {b b' : Books α} (hContract : ∀ o ∈ objectives, ∃ f, HonoursGains f o)

include hContract

/-- **One local search.** Its result is offered to the archive and waits to be compared with the
best. -/
theorem chronicled_improving (h : Chronicled objectives a₀ least pending b.chronicle)
    (hImproving : Books.Improving ρ b m b') :
    Chronicled objectives a₀ (least + 1) (m :: pending) b'.chronicle := by
  obtain ⟨run, run', solution, vector, rfl, hVector, hImprove, rfl⟩ := hImproving
  obtain ⟨i, searched, booked, rfl, hSearch, hFound, hImproves⟩ :=
    Run.improves_of_improve hImprove
  have hObjectives : run.objectives = objectives := h.objectives_eq
  have hOutcome := evaluateAll_of_vectorOf (hObjectives ▸ hContract) hVector hSearch hFound
  rw [hImproves.chronicle_eq]
  refine h.extend ⟨?_, hImproves.member, hObjectives ▸ hOutcome⟩
  exact hObjectives ▸ size_of_searchFrom hSearch

/-- Once a local search has been made, all steps keep the chronicle. -/
theorem chronicled_invariant :
    Books.Invariant ρ fun pending _ b => Chronicled objectives a₀ 1 pending b.chronicle where
  improve _ h hImproving :=
    (chronicled_improving hContract h hImproving).weaken (Nat.le_add_left ..)
  settle := by
    intro _ b m h
    show Chronicled objectives a₀ 1 [] (b.compare m).chronicle
    rw [Books.chronicle_compare]
    exact h.compare
  count h := h
  evaluate {_ _ b _ _} _ h hImproving :=
    (chronicled_improving (b := b.charge 1) hContract h hImproving).weaken (Nat.le_add_left ..)
  compare := by
    intro _ _ b m h
    rw [Books.chronicle_compare]
    exact h.compare

-- ---------------------------------------------------------------------------
-- Whole runs
-- ---------------------------------------------------------------------------

omit hContract [RandomSource ρ] in
/-- A run begins with an empty archive and with nothing found. -/
theorem chronicled_of_begun {evaluations : Nat} {settings : Settings α}
    (hBegun : Begun objectives evaluations settings b) :
    Chronicled objectives b.archive 0 [] b.chronicle where
  objectives_eq := hBegun.objectives_eq
  count := Nat.zero_le _
  made := by
    show ∀ i ∈ b.improved, _
    rw [hBegun.improved]
    exact nofun
  archive_eq := by
    show b.archive = (b.archive.run (b.improved.reverse.map _)).2
    rw [hBegun.improved]
    rfl
  best := Or.inl hBegun.best
  waiting := nofun
  settled := by
    show ∀ i ∈ b.improved, _
    rw [hBegun.improved]
    exact nofun

/-- Seeding makes a local search, and nothing is pending afterwards. -/
theorem chronicled_prepare {evaluations : Nat} {settings : Settings α} {clock : Clock} {random : ρ}
    (hPrepare : Run.prepare objectives evaluations settings clock random = .ok run) :
    (∃ n, ∀ o ∈ objectives, o.size = n) ∧
    ∃ a₀, Pareto.Archive.empty objectives.length settings.bucketCapacity = .ok a₀ ∧
      Chronicled objectives a₀ 1 [] run.chronicle := by
  obtain ⟨-, begun, first, hBegun, hFirst, hRest⟩ := begun_of_prepare hPrepare
  obtain ⟨n, hSize⟩ := hBegun.sizes
  refine ⟨⟨n, (size_eq_of_commonSize hSize).2⟩, begun.archive, hBegun.archive, ?_⟩
  have hCharged : Chronicled objectives begun.archive 0 []
    (begun.charge settings.populationSize).chronicle := chronicled_of_begun hBegun
  obtain ⟨_, hSeeded⟩ := (chronicled_invariant hContract).seeds
    (chronicled_improving hContract hCharged) hFirst hRest
  exact hSeeded

/-- **The top of the loop.** Nothing is pending there. -/
theorem chronicled_atTop {children : List (Member α)}
    (h : Chronicled objectives a₀ 1 [] run.chronicle) (hTop : run.AtTop children top) :
    Chronicled objectives a₀ 1 [] top.chronicle :=
  hTop.invariant (chronicled_invariant hContract) [] h

/-- **A whole run.** The objectives have one size, a local search is made, and in the end nothing is
pending. -/
theorem chronicled_optimize {evaluations : Nat} {settings : Settings α} {clock : Clock}
    {random : ρ} {report : Report α ρ}
    (hOptimize : optimize objectives evaluations settings clock random = .ok report) :
    (∃ n, ∀ o ∈ objectives, o.size = n) ∧
    ∃ a₀, Pareto.Archive.empty objectives.length settings.bucketCapacity = .ok a₀ ∧
      Chronicled objectives a₀ 1 [] report.run.chronicle := by
  obtain ⟨start, children, top, answer, ended, hPrepare, hTop, -, -, -, -, hBooks⟩ :=
    exists_of_optimize hOptimize
  obtain ⟨hSizes, a₀, hArchive, hPrepared⟩ := chronicled_prepare hContract hPrepare
  have hEnded : report.run.chronicle = top.chronicle := congrArg Books.chronicle hBooks
  exact ⟨hSizes, a₀, hArchive, hEnded ▸ chronicled_atTop hContract hPrepared hTop⟩

end Invariant

end SwapSearch.Memetic
