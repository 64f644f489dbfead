import SwapSearch.Proofs.Memetic.Steps

/-!
# SwapSearch — the loop of a run

A run is prepared by beginning and seeding it. Then it comes to the top of its loop again
and again, each time after one more child, until it has a reason to stop. `AtTop` are the
runs at the top of the loop. There is no bound in it: what `evolve` counts down plays no
part in where a run gets, only in how far `evolve` follows.

## Results

* `AtTop.preserves`     — what iterations preserve holds at the top of the loop.
* `AtTop.invariant`     — in particular an invariant does.
* `exists_of_evolve`    — where the loop ends.
* `exists_of_optimize`  — a whole run, taken apart.
-/

namespace SwapSearch.Memetic

open Relation

namespace Run

variable {α ρ : Type} [Scalar α] [RandomSource ρ]

/-- The runs at the top of the loop that starts with `start`, with the children made so far, newest
first. -/
inductive AtTop (start : Run α ρ) : List (Member α) → Run α ρ → Prop
  | start : AtTop start [] start
  | next {children : List (Member α)} {child : Member α} {top asked grown next : Run α ρ}
      (h : AtTop start children top) (hAsk : top.stopReason = (none, asked))
      (hChild : asked.makeChild = .ok (child, grown)) (hIterate : asked.iterate = .ok next) :
      AtTop start (child :: children) next

/-- The run as it first comes to the top of its loop. -/
def prepare (objectives : List (Objective α)) (evaluations : Nat) (settings : Settings α)
    (clock : Clock) (random : ρ) : Except Failure (Run α ρ) := do
  let run ← Run.begin objectives evaluations settings clock random
  run.seed

variable {start top ended : Run α ρ} {children : List (Member α)}

/-- What an iteration preserves that has budget left holds at the top of the loop. -/
theorem AtTop.preserves {P : List (Member α) → Books α → Prop} (hTop : AtTop start children top)
    (hStep : ∀ children b child b', b.budget.isExhausted = false → Books.Iterates ρ b child b' →
      P children b → P (child :: children) b')
    (h : P [] start.books) : P children top.books := by
  induction hTop with
  | start => exact h
  | @next children child top asked grown next _ hAsk hChild hIterate ih =>
    have hBooks : asked.books = top.books := by
      rw [← books_stopReason top, hAsk]
    rw [← hBooks] at ih
    exact hStep _ _ _ _ (isExhausted_of_stopReason hAsk) (iterates_of_iterate hChild hIterate) ih

/-- **The top of the loop.** The children have been offered, newest first. -/
theorem AtTop.invariant {P : (pending offers : List (Member α)) → Books α → Prop}
    (hTop : AtTop start children top) (h : Books.Invariant ρ P) (offers : List (Member α))
    (hStart : P [] offers start.books) : P [] (children ++ offers) top.books :=
  hTop.preserves (P := fun children b => P [] (children ++ offers) b)
    (fun _ _ _ _ hOpen hIterates hBefore => h.iterates hOpen hBefore hIterates) hStart

/-- A child later the run is at the top of the loop again, wherever the loop started. -/
theorem AtTop.cons {asked grown next : Run α ρ} {child : Member α}
    (hAsk : start.stopReason = (none, asked)) (hChild : asked.makeChild = .ok (child, grown))
    (hIterate : asked.iterate = .ok next) (hTop : AtTop next children top) :
    AtTop start (children ++ [child]) top := by
  induction hTop with
  | start => exact .next .start hAsk hChild hIterate
  | next _ hAsk' hChild' hIterate' ih => exact .next ih hAsk' hChild' hIterate'

/-- The loop ends at its top: with a reason to stop, unless it was not followed any further. -/
theorem exists_of_evolve {limit : Nat} {reason : StopReason}
    (h : start.evolve limit = .ok (reason, ended)) :
    ∃ children top answer, AtTop start children top ∧ top.stopReason = (answer, ended) ∧
      answer.getD .budgetExhausted = reason ∧ (answer = none → children.length = limit) := by
  -- on the number of turns that are left, from any start
  induction limit generalizing start with
  | zero =>
    unfold evolve at h
    cases hAsk : start.stopReason with
    | mk answer asked =>
      rw [hAsk] at h
      obtain ⟨hReason, rfl⟩ := Prod.mk.inj (Except.ok.inj h)
      exact ⟨[], start, answer, .start, hAsk, hReason, fun _ => rfl⟩
  | succ limit ih =>
    unfold evolve at h
    cases hAsk : start.stopReason with
    | mk answer asked =>
      rw [hAsk] at h
      cases answer with
      | some answer =>
        obtain ⟨rfl, rfl⟩ := Prod.mk.inj (Except.ok.inj h)
        exact ⟨[], start, some answer, .start, hAsk, rfl, nofun⟩
      | none =>
        obtain ⟨next, hIterate, h⟩ := exists_of_bind_ok h
        obtain ⟨child, grown, hChild, -⟩ := exists_of_iterate hIterate
        -- the rest of the loop starts after this child, so the child comes first
        obtain ⟨children, top, answer, hTop, hAnswer, hReason, hLimit⟩ := ih h
        refine ⟨children ++ [child], top, answer, hTop.cons hAsk hChild hIterate, hAnswer, hReason,
          fun hNone => ?_⟩
        rw [List.length_append, hLimit hNone]
        rfl

end Run

-- ---------------------------------------------------------------------------
-- Whole runs
-- ---------------------------------------------------------------------------

section Whole

variable {α ρ : Type} [Scalar α] {objectives : List (Objective α)} {evaluations : Nat}
  {settings : Settings α} {clock : Clock} {random : ρ} {run : Run α ρ}

omit [Scalar α] in
theorem size_eq_of_commonSize {n : Nat} (h : commonSize objectives = .ok n) :
    objectives ≠ [] ∧ ∀ o ∈ objectives, o.size = n := by
  unfold commonSize at h
  split at h
  · exact nomatch h
  · next first rest =>
    refine ⟨List.cons_ne_nil _ _, ?_⟩
    split at h
    · exact nomatch h
    · split at h
      · exact nomatch h
      · split at h
        · exact nomatch h
        · next hNone =>
          obtain rfl := Except.ok.inj h
          intro o ho
          simpa using List.find?_eq_none.mp hNone o ho

theorem outlook_begin (settings : Settings α) (dimensions : Nat) (clock : Clock) :
    ∃ deadline, deadline.isSome = settings.timeLimit.isSome ∧
      (Watch.begin settings dimensions clock).outlook =
        ⟨deadline, settings.target, Scalar.negInf, dimensions == 1⟩ := by
  unfold Watch.begin
  cases settings.timeLimit with
  | none => exact ⟨none, rfl, rfl⟩
  | some limit => exact ⟨some (clock.look.1 + limit), rfl, rfl⟩

/-- The books of a run that has just begun. -/
structure Begun (objectives : List (Objective α)) (evaluations : Nat) (settings : Settings α)
    (b : Books α) : Prop where
  objectives_eq : b.objectives = objectives
  sizes : ∃ n, commonSize objectives = .ok n
  budget : b.budget = .grant evaluations
  deadline : b.outlook.deadline.isSome = settings.timeLimit.isSome
  target : b.outlook.target = settings.target
  heard : b.outlook.best = Scalar.negInf
  follows : b.outlook.followsSearch = (objectives.length == 1)
  archive : Pareto.Archive.empty objectives.length settings.bucketCapacity = .ok b.archive
  elites : EliteSet.empty settings.eliteCapacity = .ok b.elites
  best : b.best.fitness = Scalar.negInf
  improved : b.improved = []
  iterations : b.iterations = 0

/-- A run begins with valid settings, and wants a population of at least two. -/
theorem begun_of_begin (h : Run.begin objectives evaluations settings clock random = .ok run) :
    run.settings = settings ∧ 2 ≤ settings.populationSize ∧
      Begun objectives evaluations settings run.books := by
  obtain ⟨size, hSize, h⟩ := exists_of_bind_ok h
  obtain ⟨_, hValid, h⟩ := exists_of_bind_ok h
  obtain ⟨search, -, h⟩ := exists_of_bind_ok h
  obtain ⟨archive, hArchive, h⟩ := exists_of_bind_ok h
  obtain ⟨elites, hElites, h⟩ := exists_of_bind_ok h
  obtain ⟨_, -, h⟩ := exists_of_bind_ok h
  obtain ⟨best, hBest, h⟩ := exists_of_bind_ok h
  obtain rfl := Except.ok.inj h
  obtain ⟨identity, -, hBest⟩ := exists_of_bind_ok (ok_of_liftM_breach hBest)
  obtain rfl := Except.ok.inj hBest
  -- a population below two would have been the first defect
  have hPopulation : ¬ settings.populationSize < 2 := by
    intro hSmall
    have hDefect : settings.defect? = some .populationTooSmall := if_pos hSmall
    have hRejected := ok_of_liftM_rejection hValid
    unfold Settings.validate at hRejected
    rw [hDefect] at hRejected
    exact nomatch hRejected
  obtain ⟨deadline, hDeadline, hOutlook⟩ := outlook_begin settings objectives.length clock
  refine ⟨rfl, Nat.not_lt.mp hPopulation, rfl, ⟨size, ok_of_liftM_rejection hSize⟩, rfl, ?_, ?_,
    ?_, ?_, ok_of_liftM_breach hArchive, ok_of_liftM_breach hElites, rfl, rfl, rfl⟩
  · exact (congrArg (fun o : Outlook α => o.deadline.isSome) hOutlook).trans hDeadline
  · exact congrArg Outlook.target hOutlook
  · exact congrArg Outlook.best hOutlook
  · exact congrArg Outlook.followsSearch hOutlook

variable [RandomSource ρ]

/-- A prepared run has begun, has charged the batch, and has admitted its seeds. -/
theorem begun_of_prepare
    (h : Run.prepare objectives evaluations settings clock random = .ok run) :
    2 ≤ settings.populationSize ∧ ∃ begun first, Begun objectives evaluations settings begun ∧
      Books.Admits ρ (begun.charge settings.populationSize) first ∧
      ReflTransGen (Books.AdmitsNext ρ) first run.books := by
  obtain ⟨begun, hBegin, hSeed⟩ := exists_of_bind_ok h
  obtain ⟨rfl, hPopulation, hBegun⟩ := begun_of_begin hBegin
  obtain ⟨first, hFirst, hRest⟩ := Run.seeds_of_seed (Nat.le_of_succ_le hPopulation) hSeed
  exact ⟨hPopulation, begun.books, first, hBegun, hFirst, hRest⟩

/-- **A whole run.** It is prepared, and then follows its loop to the end, at most for as many
iterations as there are units left. -/
theorem exists_of_optimize {report : Report α ρ}
    (h : optimize objectives evaluations settings clock random = .ok report) :
    ∃ start children top answer ended,
      Run.prepare objectives evaluations settings clock random = .ok start ∧
      start.AtTop children top ∧ top.stopReason = (answer, ended) ∧
      answer.getD .budgetExhausted = report.reason ∧
      (answer = none → children.length = start.budget.remaining) ∧
      report.run = ended.note (ended.closing report.reason) ∧ report.run.books = top.books := by
  obtain ⟨begun, hBegin, h⟩ := exists_of_bind_ok h
  obtain ⟨start, hSeed, h⟩ := exists_of_bind_ok h
  obtain ⟨⟨reason, ended⟩, hEvolve, h⟩ := exists_of_bind_ok h
  obtain rfl := Except.ok.inj h
  obtain ⟨children, top, answer, hTop, hAnswer, hReason, hLimit⟩ := Run.exists_of_evolve hEvolve
  refine ⟨start, children, top, answer, ended, ?_, hTop, hAnswer, hReason, hLimit, rfl, ?_⟩
  · unfold Run.prepare
    rw [hBegin]
    exact hSeed
  · have hBooks := top.books_stopReason
    rw [hAnswer] at hBooks
    exact hBooks

end Whole

end SwapSearch.Memetic
