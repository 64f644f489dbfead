import SwapSearch.Proofs.WeightedSum.Single
import SwapSearch.Memetic.Optimizer
import SwapSearch.Proofs.Pareto.Roster
import SwapSearch.Proofs.Tabu.Steps

/-!
# SwapSearch — the books of a run

A run carries much that only steers it: the population, the random source, the counts of
stale children, the clock. Its *books* are the rest: what it has spent, what its watch
goes by, what it has found and remembered. Few operations write them.

* An evaluation is charged.
* *Improving* a solution charges scans, lets the watch hear of values if it follows
  searches, offers the result to the archive, and counts a local search.
* A member is *compared* with the best.
* A member is *offered* to the elites.

Everything else a run does leaves the books alone.

## Results

* `books_of_charge` and its companions — one operation after the other.
* `draws_of_searchFrom`                — what a local search charges and reports.
* `improves_of_improve`                — what improving does to the books.
-/

namespace SwapSearch.Memetic

open Relation

-- ---------------------------------------------------------------------------
-- Results
-- ---------------------------------------------------------------------------

theorem ok_of_liftM_breach {β : Type} {x : Except Breach β} {b : β}
    (h : (liftM x : Except Failure β) = .ok b) : x = .ok b := by
  cases x with
  | error e => exact nomatch h
  | ok a => exact congrArg Except.ok (Except.ok.inj h)

theorem ok_of_liftM_rejection {β : Type} {x : Except Rejection β} {b : β}
    (h : (liftM x : Except Failure β) = .ok b) : x = .ok b := by
  cases x with
  | error e => exact nomatch h
  | ok a => exact congrArg Except.ok (Except.ok.inj h)

theorem evaluateAll_length {α : Type} {objectives : List (Objective α)} {solution : Permutation}
    {vector : List α} (h : evaluateAll objectives solution = .ok vector) :
    vector.length = objectives.length :=
  (forall₂_of_mapM h).length_eq.symm

-- ---------------------------------------------------------------------------
-- Watching
-- ---------------------------------------------------------------------------

/-- What a watch goes by, the clock and the record apart. -/
structure Outlook (α : Type) where
  deadline : Option Nat
  target : Option α
  best : α
  followsSearch : Bool

def Watch.outlook {α : Type} (w : Watch α) : Outlook α :=
  ⟨w.deadline, w.target, w.best, w.followsSearch⟩

namespace Outlook

variable {α : Type} [Scalar α]

def raise (o : Outlook α) (value : α) : Outlook α :=
  { o with best := Scalar.larger o.best value }

/-- A local search reports a value. -/
def hear (o : Outlook α) (value : α) : Outlook α := if o.followsSearch then o.raise value else o

/-- A local search reports values, each of which beats the one before. The last is `value`. -/
inductive Hears (o : Outlook α) : α → Outlook α → Prop
  | first (value : α) : Hears o value (o.hear value)
  | next {value value' : α} {o' : Outlook α} (h : Hears o value o')
      (hBeats : Scalar.beats value' value = true) : Hears o value' (o'.hear value')

end Outlook

namespace Watch

variable {α : Type} [Scalar α] (w : Watch α)

theorem outlook_onBest (value : α) :
    (Monitor.onBest w value : Watch α).outlook = w.outlook.hear value := by
  show (if w.followsSearch then w.raise value else w).outlook =
    if w.followsSearch then w.outlook.raise value else w.outlook
  split <;> rfl

omit [Scalar α] in
/-- Whoever asks for the time looks at the clock, and changes nothing else. -/
theorem deadlinePassed_changes : ∃ looks, w.clock.looks ≤ looks ∧
    w.deadlinePassed.2 = { w with clock := { w.clock with looks } } := by
  unfold deadlinePassed
  split
  · exact ⟨_, Nat.le_refl _, rfl⟩
  · exact ⟨_, Nat.le_succ _, rfl⟩

omit [Scalar α] in
theorem outlook_deadlinePassed : w.deadlinePassed.2.outlook = w.outlook := by
  obtain ⟨looks, -, hChanges⟩ := w.deadlinePassed_changes
  rw [hChanges]
  rfl

theorem outlook_poll : (Monitor.poll w).2.outlook = w.outlook := by
  show (if w.targetReached then (true, w) else w.deadlinePassed).2.outlook = w.outlook
  split
  · rfl
  · exact w.outlook_deadlinePassed

variable {w} {w' : Watch α}

theorem outlook_of_onCharge {b : Budget} (h : Monitor.onCharge w b = .ok w') :
    w'.outlook = w.outlook := by
  obtain ⟨recorder, -, h⟩ := exists_of_bind_ok h
  obtain rfl := Except.ok.inj h
  rfl

/-- The watch hears of the start of a search and of every new best. -/
theorem hears_of_steps {o : Outlook α} {s s' : Tabu.Standing α (Watch α)}
    (h : o.Hears s.bestValue s.monitor.outlook) (hSteps : Tabu.Standing.Steps s s') :
    o.Hears s'.bestValue s'.monitor.outlook := by
  induction hSteps with
  | refl => exact h
  | @tail before _ _ hLast ih =>
    cases hLast with
    | poll =>
      have hSame := before.monitor.outlook_poll
      exact hSame.symm ▸ ih
    | @record value hBeats =>
      have hHeard := before.monitor.outlook_onBest value
      exact hHeard.symm ▸ ih.next hBeats
    | scan _ _ _ hCharge => exact (outlook_of_onCharge hCharge).symm ▸ ih

end Watch

-- ---------------------------------------------------------------------------
-- The books
-- ---------------------------------------------------------------------------

structure Books (α : Type) where
  objectives : List (Objective α)
  budget : Budget
  outlook : Outlook α
  archive : Pareto.Archive α
  elites : EliteSet α
  best : Member α
  improved : List (Improvement α)
  iterations : Nat

/-- The pair that a local search offers to the archive. -/
def Improvement.entry {α : Type} (i : Improvement α) : Pareto.Entry α :=
  ⟨i.outcome.solution, i.member.vector⟩

namespace Books

variable {α : Type} [Scalar α]

def charge (b : Books α) (units : Nat) : Books α := { b with budget := b.budget.charge units }

/-- A member has been compared with the best. -/
def compare (b : Books α) (m : Member α) : Books α :=
  if b.best.fitness < m.fitness then
    { b with best := m, outlook := b.outlook.raise m.fitness }
  else b

def offer (b : Books α) (m : Member α) : Books α := { b with elites := (b.elites.offer m).2 }

/-- A local search `i` has been made and its result offered to the archive. With several objectives
the result has been evaluated anew. -/
structure Improves (b : Books α) (i : Improvement α) (b' : Books α) : Prop where
  size : ∀ o ∈ b.objectives.head?, i.start.size = o.size
  member : i.member = Member.ofVector i.outcome.solution i.member.vector
  finite : ∀ x ∈ i.member.vector, Scalar.isFinite x = true
  single : b.objectives.length = 1 → i.member.vector = [i.outcome.value]
  books : ∃ spent outlook,
    ReflTransGen (Budget.Draws (Budget.pairCount i.start.size)) b.budget spent ∧
    b.outlook.Hears i.outcome.value outlook ∧
    b' = { b with
      budget := if b.objectives.length = 1 then spent else spent.charge 1
      outlook
      archive := (b.archive.offered i.entry).2
      improved := i :: b.improved }

end Books

namespace Run

variable {α ρ : Type} [Scalar α]

def books (run : Run α ρ) : Books α where
  objectives := run.objectives
  budget := run.budget
  outlook := run.watch.outlook
  archive := run.archive
  elites := run.elites
  best := run.best
  improved := run.improved
  iterations := run.iterations

theorem books_of_charge {run run' : Run α ρ} {units : Nat} (h : run.charge units = .ok run') :
    run'.books = run.books.charge units := by
  obtain ⟨watch, hWatch, h⟩ := exists_of_bind_ok h
  obtain rfl := Except.ok.inj h
  have hOutlook := Watch.outlook_of_onCharge hWatch
  unfold books Books.charge
  rw [← hOutlook]

theorem books_stopReason (run : Run α ρ) : run.stopReason.2.books = run.books := by
  unfold stopReason
  split
  · rfl
  · split
    · rfl
    · unfold books
      dsimp only
      rw [Watch.outlook_deadlinePassed]

/-- Whoever has no reason to stop has budget left. -/
theorem isExhausted_of_stopReason {run asked : Run α ρ} (h : run.stopReason = (none, asked)) :
    asked.budget.isExhausted = false := by
  have hBooks := run.books_stopReason
  rw [h] at hBooks
  have hBudget : asked.budget = run.budget := congrArg Books.budget hBooks
  rw [hBudget]
  unfold stopReason at h
  split at h
  · exact nomatch h
  · split at h
    · exact nomatch h
    · next hOpen => exact Bool.eq_false_iff.mpr hOpen

theorem books_of_evaluate {run run' : Run α ρ} {solution : Permutation} {vector : List α}
    (h : run.evaluate solution = .ok (vector, run')) :
    evaluateAll run.objectives solution = .ok vector ∧ run'.books = run.books.charge 1 := by
  obtain ⟨vector', hVector, h⟩ := exists_of_bind_ok h
  obtain ⟨charged, hCharge, h⟩ := exists_of_bind_ok h
  obtain ⟨rfl, rfl⟩ := Prod.mk.inj (Except.ok.inj h)
  have hBooks := books_of_charge hCharge
  exact ⟨hVector, hBooks⟩

theorem books_updateBest (run : Run α ρ) (m : Member α) :
    (run.updateBest m).books = run.books.compare m := by
  unfold updateBest Books.compare
  show _ = if run.best.fitness < m.fitness then _ else _
  split <;> rfl

theorem books_offerElite (run : Run α ρ) (m : Member α) :
    (run.offerElite m).books = run.books.offer m := rfl

theorem books_replaceWorst (run : Run α ρ) (child : Member α) :
    (run.replaceWorst child).books = run.books := by
  unfold replaceWorst
  split
  · rfl
  · split <;> rfl

theorem books_countChild (run : Run α ρ) (child : Member α) :
    (run.countChild child).books = run.books := by
  unfold countChild
  split <;> rfl

section Random

variable [RandomSource ρ]

theorem drawWeights_snd (run : Run α ρ) :
    run.drawWeights.2 = { run with random := run.drawWeights.2.random } := by
  unfold drawWeights
  split <;> rfl

/-- Breeding draws random numbers and changes nothing else. -/
theorem changes_of_breed {run run' : Run α ρ} {child : Permutation}
    (h : run.breed = .ok (child, run')) : run' = { run with random := run'.random } := by
  obtain ⟨⟨⟨i, j⟩, random⟩, -, h⟩ := exists_of_bind_ok h
  obtain ⟨first, -, h⟩ := exists_of_bind_ok h
  obtain ⟨second, -, h⟩ := exists_of_bind_ok h
  cases hCrossover : run.settings.crossover with
  | partiallyMatched =>
    simp only [hCrossover] at h
    obtain ⟨made, -, h⟩ := exists_of_bind_ok h
    obtain ⟨-, rfl⟩ := Prod.mk.inj (Except.ok.inj h)
    rfl
  | uniform =>
    simp only [hCrossover] at h
    obtain ⟨⟨made, random'⟩, -, h⟩ := exists_of_bind_ok h
    obtain ⟨-, rfl⟩ := Prod.mk.inj (Except.ok.inj h)
    rfl

theorem books_of_breed {run run' : Run α ρ} {child : Permutation}
    (h : run.breed = .ok (child, run')) : run'.books = run.books := by
  rw [changes_of_breed h]
  rfl

-- ---------------------------------------------------------------------------
-- Improving
-- ---------------------------------------------------------------------------

/-- What a local search consists of, and what it changes. -/
theorem exists_of_searchFrom {run run' : Run α ρ} {solution : Permutation} {vector : List α}
    {outcome : Tabu.Outcome α} (h : run.searchFrom solution vector = .ok (outcome, run')) :
    ∃ (sum : WeightedSum α) (context rest : Tabu.Context (WeightedSum α) (Watch α) ρ),
      WeightedSum.ofObjectives run.objectives run.drawWeights.1 = .ok sum ∧
      context.landscape = sum ∧ context.budget = run.budget ∧ context.monitor = run.watch ∧
      run.search.improve solution (sum.combine vector) run.settings.improvementDepth context =
        .ok (outcome, rest) ∧
      run' = { run with
        random := rest.random
        budget := rest.budget
        watch := rest.monitor
        journal := jumpEvents outcome.bursts ++ run.journal
        consulted := rest.landscape.consulted ++ run.consulted } := by
  have hDrawn := run.drawWeights_snd
  unfold searchFrom at h
  revert h hDrawn
  generalize run.drawWeights = drawn
  obtain ⟨weights, drawn⟩ := drawn
  intro h hDrawn
  obtain ⟨sum, hSum, h⟩ := exists_of_bind_ok h
  obtain ⟨⟨outcome', rest⟩, hImprove, h⟩ := exists_of_bind_ok h
  obtain ⟨rfl, rfl⟩ := Prod.mk.inj (Except.ok.inj h)
  dsimp only at hDrawn
  rw [hDrawn] at hSum hImprove
  exact ⟨sum, _, rest, hSum, rfl, rfl, rfl, hImprove, by rw [hDrawn]⟩

omit [RandomSource ρ] in
theorem books_of_vectorOf {run run' : Run α ρ} {outcome : Tabu.Outcome α} {vector : List α}
    (h : run.vectorOf outcome = .ok (vector, run')) :
    (run.objectives.length = 1 → vector = [outcome.value]) ∧
      run'.books = if run.objectives.length = 1 then run.books else run.books.charge 1 := by
  unfold vectorOf at h
  split at h
  · next hOne =>
    obtain ⟨rfl, rfl⟩ := Prod.mk.inj (Except.ok.inj h)
    exact ⟨fun _ => rfl, (if_pos hOne).symm⟩
  · next hMany =>
    obtain ⟨-, hBooks⟩ := books_of_evaluate h
    exact ⟨fun hOne => absurd hOne hMany, hBooks.trans (if_neg hMany).symm⟩

/-- What a local search does to the books, before its result is offered. -/
theorem draws_of_searchFrom {run run' : Run α ρ} {solution : Permutation} {vector : List α}
    {outcome : Tabu.Outcome α} (h : run.searchFrom solution vector = .ok (outcome, run')) :
    (∀ o ∈ run.objectives.head?, solution.size = o.size) ∧
    ∃ spent outlook,
      ReflTransGen (Budget.Draws (Budget.pairCount solution.size)) run.budget spent ∧
      run.watch.outlook.Hears outcome.value outlook ∧
      run'.books = { run.books with budget := spent, outlook } := by
  obtain ⟨sum, context, rest, hSum, hLandscape, hBudget, hWatch, hImprove, rfl⟩ :=
    exists_of_searchFrom h
  obtain ⟨hSize, final, hSteps, -, hValue, -, hMonitor⟩ := Tabu.Search.steps_of_improve hImprove
  have hDraws := Tabu.Search.draws_of_improve hImprove
  have hFirst : run.watch.outlook.Hears (sum.combine vector)
      (Monitor.onBest context.monitor (sum.combine vector) : Watch α).outlook := by
    rw [Watch.outlook_onBest, hWatch]
    exact .first _
  have hHears := Watch.hears_of_steps hFirst hSteps
  rw [← hValue, ← hMonitor] at hHears
  refine ⟨fun o ho => ?_, rest.budget, rest.monitor.outlook, hBudget ▸ hDraws, hHears, rfl⟩
  rw [hSize, hLandscape]
  exact WeightedSum.size_ofObjectives hSum o ho

omit [RandomSource ρ] in
/-- What reaches the archive is finite. -/
theorem finite_of_insert {a a' : Pareto.Archive α} {p : Permutation} {vector : List α}
    {answer : Bool} (h : a.insert p vector = .ok (answer, a')) :
    ∀ x ∈ vector, Scalar.isFinite x = true := by
  obtain ⟨_, hVector, -⟩ := exists_of_bind_ok h
  unfold Pareto.Archive.requireVector Pareto.requireVector at hVector
  split at hVector
  · exact nomatch hVector
  · split at hVector
    · next hFinite => exact List.all_eq_true.mp hFinite
    · exact nomatch hVector

/-- **Improving.** A local search is made, its outcome gets its vector, and the result is offered to
the archive. -/
theorem improves_of_improve {run run' : Run α ρ} {solution : Permutation} {vector : List α}
    {m : Member α} (h : run.improve solution vector = .ok (m, run')) :
    ∃ (i : Improvement α) (searched booked : Run α ρ), i.member = m ∧
      run.searchFrom solution vector = .ok (i.outcome, searched) ∧
      searched.vectorOf i.outcome = .ok (i.member.vector, booked) ∧
      run.books.Improves i run'.books := by
  unfold improve at h
  split at h
  · exact nomatch h
  · obtain ⟨⟨outcome, searched⟩, hSearch, h⟩ := exists_of_bind_ok h
    obtain ⟨⟨found, booked⟩, hFound, h⟩ := exists_of_bind_ok h
    obtain ⟨⟨answer, archive⟩, hInsert, h⟩ := exists_of_bind_ok h
    obtain ⟨rfl, rfl⟩ := Prod.mk.inj (Except.ok.inj h)
    obtain ⟨hSize, spent, outlook, hDraws, hHears, hSearched⟩ :=
      draws_of_searchFrom (ok_of_liftM_breach hSearch)
    obtain ⟨hSingle, hBooked⟩ := books_of_vectorOf (ok_of_liftM_breach hFound)
    -- the insertion succeeded, so the offer it stands for has the same archive
    have hArchive : (booked.archive.offered ⟨outcome.solution, found⟩).2 = archive := by
      unfold Pareto.Archive.offered
      rw [ok_of_liftM_rejection hInsert]
      rfl
    have hObjectives : searched.objectives = run.objectives := congrArg Books.objectives hSearched
    rw [hObjectives] at hSingle hBooked
    refine ⟨⟨solution, outcome, Member.ofVector outcome.solution found⟩, searched, booked, rfl,
      ok_of_liftM_breach hSearch, ok_of_liftM_breach hFound, hSize, rfl,
      finite_of_insert (ok_of_liftM_rejection hInsert), hSingle, spent, outlook, hDraws, hHears, ?_⟩
    -- the books after the search and the evaluation
    have hSame : booked.books = { run.books with
        budget := if run.objectives.length = 1 then spent else spent.charge 1
        outlook } := by
      rw [hBooked, hSearched]
      split <;> rfl
    have hThere : booked.archive = run.archive := congrArg Books.archive hSame
    have hBefore : booked.improved = run.improved := congrArg Books.improved hSame
    rw [hThere] at hArchive
    have hAdded : ∀ i, { booked with archive, improved := i :: booked.improved : Run α ρ }.books =
        { booked.books with archive, improved := i :: booked.improved } := fun _ => rfl
    rw [hAdded, hSame, hBefore, ← hArchive]
    rfl

end Random

end Run

end SwapSearch.Memetic
