import SwapSearch.Proofs.Memetic.Report

/-!
# SwapSearch — what a run charges

The batch of seeds is charged first. From then on every evaluation of a child or of a
mutant and every scan is charged by someone who has asked whether the budget is
exhausted. There is one exception: with several objectives the result of a local search
is evaluated anew, and the search may just have used up the budget. Nobody asks again
before that evaluation, but everybody does after it, so it is the last one.

Every iteration charges at least the evaluation of its child. So a run gets only so often
to the top of its loop, and ends there because it has a reason to, however far the loop
is followed.

The interface `Scalar` promises no law, and none is needed: all this holds in floating
point.

## Results

* `charged_improving`    — improving charges scans after asking, and perhaps one unit more.
* `charged_atTop`        — so it is at every top of the loop.
* `stops_of_optimize`    — a run stops because it has a reason to.
* `optimize_charges`     — the charges of a run.
* `optimize_terminates`  — the number of iterations and the total work of a run.
-/

namespace SwapSearch.Memetic

open Relation

-- ---------------------------------------------------------------------------
-- The charges in the books
-- ---------------------------------------------------------------------------

/-- After the opening charge everyone has asked before charging. If there are several objectives,
one evaluation may have followed the end of the budget. -/
structure Charged {α : Type} (objectives : List (Objective α)) (opening most total : Nat)
    (b : Books α) : Prop where
  objectives_eq : b.objectives = objectives
  budget : b.budget.Prudent opening most total ∨
    objectives.length ≠ 1 ∧ ∃ spent : Budget, spent.Prudent opening most total ∧
      spent.isExhausted = true ∧ b.budget = spent.charge 1

section Steps

variable {α ρ : Type} {objectives : List (Objective α)} {opening most total : Nat}
  {b b' : Books α} {m : Member α}

/-- While there is budget left, everyone has asked. -/
theorem Charged.prudent (h : Charged objectives opening most total b)
    (hOpen : b.budget.isExhausted = false) : b.budget.Prudent opening most total := by
  rcases h.budget with hPrudent | ⟨-, spent, hSpent, hExhausted, hBudget⟩
  · exact hPrudent
  · rw [hBudget, Budget.isExhausted_charge hSpent.used_eq hExhausted] at hOpen
    exact Bool.noConfusion hOpen

theorem Charged.total_eq (h : Charged objectives opening most total b) :
    b.budget.total = total := by
  rcases h.budget with hPrudent | ⟨-, spent, hSpent, -, hBudget⟩
  · exact hPrudent.total_eq
  · rw [hBudget]
    exact hSpent.total_eq

theorem Charged.used_eq (h : Charged objectives opening most total b) :
    b.budget.used = Word.saturated b.budget.charges.sum := by
  rcases h.budget with hPrudent | ⟨-, spent, hSpent, -, hBudget⟩
  · exact hPrudent.used_eq
  · rw [hBudget]
    exact Budget.used_charge hSpent.used_eq 1

/-- While there is budget left, less than the total has been charged. -/
theorem Charged.sum_lt (hTotal : total ≤ Word.largest)
    (h : Charged objectives opening most total b) (hOpen : b.budget.isExhausted = false) :
    b.budget.charges.sum < total := by
  have hBelow : ¬ b.budget.total ≤ b.budget.used := of_decide_eq_false hOpen
  rw [h.total_eq, h.used_eq] at hBelow
  unfold Word.saturated at hBelow
  omega

/-- The total is overdrawn by less than one charge, and perhaps by one evaluation more. -/
theorem Charged.sum_le (hTotal : total ≤ Word.largest)
    (h : Charged objectives opening most total b) :
    b.budget.charges.sum ≤
      max opening (total - 1 + most) + if objectives.length = 1 then 0 else 1 := by
  rcases h.budget with hPrudent | ⟨hMany, spent, hSpent, -, hBudget⟩
  · exact Nat.le_trans (hPrudent.charges.sum_le hTotal) (Nat.le_add_right ..)
  · rw [hBudget, if_neg hMany]
    show 1 + spent.charges.sum ≤ _
    have := hSpent.charges.sum_le hTotal
    omega

variable [Scalar α] [RandomSource ρ]

theorem Charged.compare (h : Charged objectives opening most total b) :
    Charged objectives opening most total (b.compare m) := by
  unfold Books.compare
  split
  · exact ⟨h.objectives_eq, h.budget⟩
  · exact h

theorem Charged.offer (h : Charged objectives opening most total b) :
    Charged objectives opening most total (b.offer m) :=
  ⟨h.objectives_eq, h.budget⟩

/-- A scan of the objectives and a single evaluation charge at most `most` units. -/
structure Affords (objectives : List (Objective α)) (most : Nat) : Prop where
  evaluation : 1 ≤ most
  scan : ∃ o ∈ objectives.head?, Budget.pairCount o.size ≤ most

variable (hMost : Affords objectives most)

include hMost

/-- **Improving.** It charges scans after asking. With several objectives one unit more is charged
without asking. -/
theorem charged_improving (hObjectives : b.objectives = objectives)
    (hPrudent : b.budget.Prudent opening most total) (hImproving : Books.Improving ρ b m b') :
    Charged objectives opening most total b' := by
  obtain ⟨i, -, hImproves⟩ := Books.improves_of_improving hImproving
  obtain ⟨spent, outlook, hDraws, -, rfl⟩ := hImproves.books
  obtain ⟨o, ho, hScan⟩ := hMost.scan
  have hSize : i.start.size = o.size := hImproves.size o (hObjectives ▸ ho)
  -- every charge of the walk is a scan, after a look at the budget
  have hSpent : spent.Prudent opening most total :=
    hPrudent.draws_many
      (ReflTransGen.mono (fun _ _ hDraws => hDraws.mono (hSize ▸ hScan)) _ _ hDraws)
  refine ⟨hObjectives, ?_⟩
  dsimp only
  rw [hObjectives]
  split
  · exact Or.inl hSpent
  · next hMany =>
    -- the last unit is still in time, or it is the one charge too many
    cases hLeft : spent.isExhausted with
    | false => exact Or.inl (hSpent.draws (.charge hMost.evaluation hLeft))
    | true => exact Or.inr ⟨hMany, spent, hSpent, hLeft, rfl⟩

/-- An evaluation after asking, and then improving. -/
theorem charged_evaluation (h : Charged objectives opening most total b)
    (hOpen : b.budget.isExhausted = false) (hImproving : Books.Improving ρ (b.charge 1) m b') :
    Charged objectives opening most total b' :=
  charged_improving (b := b.charge 1) hMost h.objectives_eq
    ((h.prudent hOpen).draws (.charge hMost.evaluation hOpen)) hImproving

/-- All steps of a run ask before they charge. -/
theorem charged_invariant :
    Books.Invariant ρ fun _ _ b => Charged objectives opening most total b where
  improve hOpen h hImproving :=
    charged_improving hMost h.objectives_eq (h.prudent hOpen) hImproving
  settle h := h.compare.offer
  count h := ⟨h.objectives_eq, h.budget⟩
  evaluate hOpen h hImproving := charged_evaluation hMost h hOpen hImproving
  compare h := h.compare

/-- **The seeds.** Only the first one is improved without asking. -/
theorem charged_seeds {first : Books α} (hObjectives : b.objectives = objectives)
    (hBudget : b.budget = .grant total)
    (hFirst : Books.Admits ρ (b.charge opening) first)
    (hRest : ReflTransGen (Books.AdmitsNext ρ) first b') :
    Charged objectives opening most total b' := by
  have hOpened : (b.charge opening).budget.Prudent opening most total := by
    show (b.budget.charge opening).Prudent opening most total
    rw [hBudget]
    exact .open_grant
  obtain ⟨_, hSeeded⟩ := (charged_invariant hMost).seeds
    (charged_improving (b := b.charge opening) hMost hObjectives hOpened) hFirst hRest
  exact hSeeded

/-- **The top of the loop.** -/
theorem charged_atTop {start top : Run α ρ} {children : List (Member α)}
    (h : Charged objectives opening most total start.books) (hTop : start.AtTop children top) :
    Charged objectives opening most total top.books :=
  hTop.invariant (charged_invariant hMost) [] h

end Steps

-- ---------------------------------------------------------------------------
-- Progress
-- ---------------------------------------------------------------------------

section Progress

variable {α ρ : Type} [Scalar α] [RandomSource ρ] {b b' : Books α} {m : Member α}

namespace Books

/-- All units charged, whether or not they still count. -/
def charged (b : Books α) : Nat := b.budget.charges.sum

omit [Scalar α] in
@[simp] theorem charged_charge (units : Nat) : (b.charge units).charged = units + b.charged := rfl

@[simp] theorem charged_compare : (b.compare m).charged = b.charged := by
  unfold compare
  split <;> rfl

@[simp] theorem iterations_compare : (b.compare m).iterations = b.iterations := by
  unfold compare
  split <;> rfl

@[simp] theorem charged_offer : (b.offer m).charged = b.charged := rfl

@[simp] theorem iterations_offer : (b.offer m).iterations = b.iterations := rfl

/-- Nothing is ever given back, and improving does not count as an iteration. -/
theorem Improving.progress (h : Improving ρ b m b') :
    b.charged ≤ b'.charged ∧ b'.iterations = b.iterations := by
  obtain ⟨i, -, hImproves⟩ := improves_of_improving h
  obtain ⟨spent, outlook, hDraws, -, rfl⟩ := hImproves.books
  refine ⟨?_, rfl⟩
  have hSpent := Budget.sum_le_of_draws hDraws
  unfold charged
  dsimp only
  split
  · exact hSpent
  · exact Nat.le_trans hSpent (Nat.le_add_left ..)

theorem Admits.progress (h : Admits ρ b b') :
    b.charged ≤ b'.charged ∧ b'.iterations = b.iterations := by
  obtain ⟨hImproving⟩ := h
  simpa using hImproving.progress

theorem Mutates.progress (h : Mutates ρ b b') :
    b.charged ≤ b'.charged ∧ b'.iterations = b.iterations := by
  obtain ⟨-, hImproving⟩ := h
  have hProgress := hImproving.progress
  rw [charged_charge] at hProgress
  rw [charged_compare, iterations_compare]
  exact ⟨by omega, hProgress.2⟩

/-- **An iteration charges at least one unit.** -/
theorem Iterates.progress (h : Iterates ρ b m b') :
    b.charged + 1 ≤ b'.charged ∧ b'.iterations = b.iterations + 1 := by
  obtain @⟨grown, refreshed, hChild, hRefresh⟩ := h
  have hGrown := hChild.progress
  have hRefreshed : grown.charged ≤ refreshed.charged ∧
      refreshed.iterations = grown.iterations := by
    induction hRefresh with
    | refl => exact ⟨Nat.le_refl _, rfl⟩
    | tail _ hLast ih =>
      exact ⟨Nat.le_trans ih.1 hLast.progress.1, hLast.progress.2.trans ih.2⟩
  rw [charged_charge] at hGrown
  rw [charged_offer, charged_compare, iterations_offer, iterations_compare]
  refine ⟨?_, hRefreshed.2.trans hGrown.2⟩
  have : ({ b with iterations := b.iterations + 1 } : Books α).charged = b.charged := rfl
  omega

end Books

/-- At the top of the loop every child has cost at least one unit. -/
theorem progress_atTop {start top : Run α ρ} {children : List (Member α)}
    (hTop : start.AtTop children top) :
    start.books.charged + children.length ≤ top.books.charged ∧
      top.iterations = start.iterations + children.length := by
  refine hTop.preserves (P := fun children b => start.books.charged + children.length ≤ b.charged ∧
    b.iterations = start.iterations + children.length) (fun children b child b' _ hIterates h => ?_)
    ⟨Nat.le_refl _, rfl⟩
  have hProgress := hIterates.progress
  rw [List.length_cons]
  omega

end Progress

-- ---------------------------------------------------------------------------
-- Whole runs
-- ---------------------------------------------------------------------------

section Whole

variable {α ρ : Type} [Scalar α] [RandomSource ρ] {objectives : List (Objective α)}
  {evaluations n : Nat} {settings : Settings α} {clock : Clock} {random : ρ}

omit [Scalar α] in
/-- What a run over `n` positions charges at once. -/
theorem affords_of_size (hNonempty : objectives ≠ []) (hSizes : ∀ o ∈ objectives, o.size = n) :
    Affords objectives (max 1 (Budget.pairCount n)) where
  evaluation := Nat.le_max_left ..
  scan := by
    obtain ⟨first, rest, rfl⟩ := List.exists_cons_of_ne_nil hNonempty
    refine ⟨first, rfl, ?_⟩
    rw [hSizes first (List.mem_cons_self ..)]
    exact Nat.le_max_right ..

/-- Once prepared, a run has charged at least the batch. -/
theorem charged_prepare {start : Run α ρ} (hSizes : ∀ o ∈ objectives, o.size = n)
    (h : Run.prepare objectives evaluations settings clock random = .ok start) :
    Affords objectives (max 1 (Budget.pairCount n)) ∧
    Charged objectives settings.populationSize (max 1 (Budget.pairCount n)) evaluations
      start.books ∧
    settings.populationSize ≤ start.books.charged ∧ start.iterations = 0 := by
  obtain ⟨-, begun, first, hBegun, hFirst, hRest⟩ := begun_of_prepare h
  obtain ⟨_, hCommon⟩ := hBegun.sizes
  have hMost := affords_of_size (size_eq_of_commonSize hCommon).1 hSizes
  refine ⟨hMost, charged_seeds hMost hBegun.objectives_eq hBegun.budget hFirst hRest, ?_⟩
  -- usage only grows, and no iteration is counted while seeding
  have hProgress : ∀ {b}, ReflTransGen (Books.AdmitsNext ρ) first b →
      settings.populationSize ≤ b.charged ∧ b.iterations = 0 := by
    intro b hRest
    induction hRest with
    | refl =>
      have hFirst := hFirst.progress
      rw [Books.charged_charge] at hFirst
      exact ⟨Nat.le_trans (Nat.le_add_right ..) hFirst.1, hFirst.2.trans hBegun.iterations⟩
    | tail _ hLast ih =>
      exact ⟨ih.1.trans hLast.2.progress.1, hLast.2.progress.2.trans ih.2⟩
  exact hProgress hRest

/-- The charges at any top of the loop. -/
theorem exists_charged {start top : Run α ρ} {children : List (Member α)}
    (hPrepare : Run.prepare objectives evaluations settings clock random = .ok start)
    (hTop : start.AtTop children top) :
    ∃ most, Charged objectives settings.populationSize most evaluations top.books := by
  obtain ⟨-, begun, -, hBegun, -, -⟩ := begun_of_prepare hPrepare
  obtain ⟨n, hCommon⟩ := hBegun.sizes
  obtain ⟨hMost, hStart, -⟩ := charged_prepare (size_eq_of_commonSize hCommon).2 hPrepare
  exact ⟨_, charged_atTop hMost hStart hTop⟩

variable {report : Report α ρ}

/-- **The charges of a run.** The batch of seeds comes first, and everything after it is charged
while less than the budget has been used; except that with several objectives the result of one
local search is evaluated after that, at the very end. -/
theorem optimize_charges
    (hOptimize : optimize objectives evaluations settings clock random = .ok report) :
    ∃ late timely, report.run.budget.charges = late ++ timely ∧
      timely.getLast? = some settings.populationSize ∧ Budget.Timely evaluations timely ∧
      (late = [] ∨ late = [1] ∧ objectives.length ≠ 1 ∧
        evaluations ≤ Word.saturated timely.sum) ∧
      report.evaluations = Word.saturated (late ++ timely).sum := by
  obtain ⟨start, children, top, -, -, hPrepare, hTop, -, -, -, -, hBooks⟩ :=
    exists_of_optimize hOptimize
  have hBudget : report.run.budget = top.budget := congrArg Books.budget hBooks
  obtain ⟨most, hCharged⟩ := exists_charged hPrepare hTop
  show ∃ late timely, report.run.budget.charges = late ++ timely ∧ _ ∧ _ ∧ _ ∧
    report.run.budget.used = _
  rw [hBudget]
  -- all charges were in time, or one came after the budget was exhausted
  rcases hCharged.budget with hPrudent | ⟨hMany, spent, hSpent, hExhausted, hLate⟩
  · exact ⟨[], _, rfl, hPrudent.charges.getLast?_eq, hPrudent.charges.timely, Or.inl rfl,
      hPrudent.used_eq⟩
  · have hLate : top.budget = spent.charge 1 := hLate
    have hTotal : spent.total ≤ spent.used := of_decide_eq_true hExhausted
    rw [hSpent.total_eq, hSpent.used_eq] at hTotal
    rw [hLate]
    exact ⟨[1], spent.charges, rfl, hSpent.charges.getLast?_eq, hSpent.charges.timely,
      Or.inr ⟨rfl, hMany, hTotal⟩, Budget.used_charge hSpent.used_eq 1⟩

/-- Seeds two members of `rivals`, on a budget that the first scan uses up. -/
def overdrawnRun : Except Failure (Report ℚ Random.SplitMix) :=
  optimize rivals 3 briefSettings (.ticking 1) ⟨7⟩

/-- The batch, a scan, and an evaluation that nobody has asked for. -/
theorem optimize_charges_rivals : ∃ report, overdrawnRun = .ok report ∧
    ∃ late timely, report.run.budget.charges = late ++ timely ∧
      timely.getLast? = some 2 ∧ Budget.Timely 3 timely ∧
      (late = [] ∨ late = [1] ∧ rivals.length ≠ 1 ∧ 3 ≤ Word.saturated timely.sum) ∧
      report.evaluations = Word.saturated (late ++ timely).sum := by
  have hOk : overdrawnRun.toOption.isSome = true := by decide +kernel
  cases hRun : overdrawnRun with
  | error e =>
    rw [hRun] at hOk
    exact nomatch hOk
  | ok report => exact ⟨report, rfl, optimize_charges hRun⟩

/-- Several objectives can be charged for after the budget has been used up. -/
theorem charges_not_timely : ∃ report, overdrawnRun = .ok report ∧
    ¬ Budget.Timely 3 report.run.budget.charges := by
  have hCharges : overdrawnRun.toOption.map (·.run.budget.charges) = some [1, 3, 2] := by
    decide +kernel
  cases hRun : overdrawnRun with
  | error e =>
    rw [hRun] at hCharges
    exact nomatch hCharges
  | ok report =>
    rw [hRun] at hCharges
    have hList : report.run.budget.charges = [1, 3, 2] := Option.some.inj hCharges
    refine ⟨report, rfl, fun hTimely => ?_⟩
    rw [hList] at hTimely
    rcases hTimely 1 [3, 2] (List.suffix_refl _) with hNone | hBelow
    · exact nomatch hNone
    · exact absurd hBelow (by decide)

/-- A run that goes on has charged less than its budget. -/
theorem charged_lt {start top asked : Run α ρ} {children : List (Member α)}
    (hTotal : evaluations ≤ Word.largest)
    (hPrepare : Run.prepare objectives evaluations settings clock random = .ok start)
    (hTop : start.AtTop children top) (hAsk : top.stopReason = (none, asked)) :
    start.books.charged + children.length < evaluations := by
  obtain ⟨most, hThere⟩ := exists_charged hPrepare hTop
  have hSame := top.books_stopReason
  rw [hAsk] at hSame
  have hCharged : Charged _ _ _ _ asked.books := hSame ▸ hThere
  have hProgress := (progress_atTop hTop).1
  rw [← hSame] at hProgress
  exact Nat.lt_of_le_of_lt hProgress
    (hCharged.sum_lt hTotal (Run.isExhausted_of_stopReason hAsk))

/-- **A run stops because it has a reason to.** The units left when it is prepared are more than
enough to follow its loop to the end. -/
theorem stops_of_optimize (hTotal : evaluations ≤ Word.largest)
    (hOptimize : optimize objectives evaluations settings clock random = .ok report) :
    ∃ start children top ended,
      Run.prepare objectives evaluations settings clock random = .ok start ∧
      start.AtTop children top ∧ top.stopReason = (some report.reason, ended) ∧
      report.run = ended.note (ended.closing report.reason) ∧
      report.run.books = top.books := by
  obtain ⟨start, children, top, answer, ended, hPrepare, hTop, hAsk, hReason, hLimit, hReport,
    hBooks⟩ := exists_of_optimize hOptimize
  cases answer with
  | some reason =>
    obtain rfl : reason = report.reason := hReason
    exact ⟨start, children, top, ended, hPrepare, hTop, hAsk, hReport, hBooks⟩
  | none =>
    obtain ⟨most, hStart⟩ := exists_charged hPrepare .start
    have hLeft : children.length = start.budget.total - start.budget.used := hLimit rfl
    have hUsed : start.budget.used = Word.saturated start.books.charged := hStart.used_eq
    have hGranted : start.budget.total = evaluations := hStart.total_eq
    have hLess := charged_lt hTotal hPrepare hTop hAsk
    unfold Word.saturated at hUsed
    omega

/-- **Termination and total work.** A run gets to the top of its loop at most once for every unit
that the batch has left over, stops there because it has a reason to, and has overdrawn its budget
by less than one scan; by one unit more if there are several objectives. -/
theorem optimize_terminates (hTotal : evaluations ≤ Word.largest)
    (hSizes : ∀ o ∈ objectives, o.size = n)
    (hOptimize : optimize objectives evaluations settings clock random = .ok report) :
    ∃ start, Run.prepare objectives evaluations settings clock random = .ok start ∧
      (∀ children top, start.AtTop children top →
        children.length ≤ evaluations - settings.populationSize) ∧
      (∃ children top ended, start.AtTop children top ∧
        top.stopReason = (some report.reason, ended) ∧
        report.run = ended.note (ended.closing report.reason) ∧
        report.iterations = children.length) ∧
      report.evaluations ≤
        max settings.populationSize (evaluations - 1 + max 1 (Budget.pairCount n)) +
          if objectives.length = 1 then 0 else 1 := by
  obtain ⟨start, children, top, ended, hPrepare, hTop, hAsk, hReport, hBooks⟩ :=
    stops_of_optimize hTotal hOptimize
  obtain ⟨hMost, hStart, hBatch, hZero⟩ := charged_prepare hSizes hPrepare
  refine ⟨start, hPrepare, fun children top hTop => ?_, ⟨children, top, ended, hTop, hAsk, hReport,
    ?_⟩, ?_⟩
  · cases hTop with
    | start => exact Nat.zero_le _
    | next hBefore hAsk _ _ =>
      -- the last child was made below the budget, and each before it had charged a unit
      have hLess := charged_lt hTotal hPrepare hBefore hAsk
      rw [List.length_cons]
      omega
  · have hIterations : report.run.iterations = top.iterations := congrArg Books.iterations hBooks
    have hCount := (progress_atTop hTop).2
    rw [hZero, Nat.zero_add] at hCount
    exact hIterations.trans hCount
  · have hCharged := charged_atTop hMost hStart hTop
    have hUsed : report.evaluations = Word.saturated top.books.charged :=
      (congrArg (·.budget.used) hBooks).trans hCharged.used_eq
    rw [hUsed]
    exact Nat.le_trans (Nat.min_le_left ..) (hCharged.sum_le hTotal)

/-- Two seeds and a scan of three pairs: eighteen iterations at most, and at most 23 units. -/
theorem optimize_terminates_rivals : 20 ≤ Word.largest ∧ (∀ o ∈ rivals, o.size = 3) ∧
    ∃ report, briefRun = .ok report ∧
    ∃ start, Run.prepare rivals 20 briefSettings (.ticking 1) (⟨7⟩ : Random.SplitMix) = .ok start ∧
      (∀ children top, start.AtTop children top → children.length ≤ 18) ∧
      (∃ children top ended, start.AtTop children top ∧
        top.stopReason = (some report.reason, ended) ∧
        report.run = ended.note (ended.closing report.reason) ∧
        report.iterations = children.length) ∧
      report.evaluations ≤ 23 := by
  have hTotal : 20 ≤ Word.largest := by decide
  have hSizes : ∀ o ∈ rivals, o.size = 3 := by
    refine List.forall_mem_cons.mpr ⟨rfl, List.forall_mem_singleton.mpr rfl⟩
  have hOk : briefRun.toOption.isSome = true := by decide +kernel
  refine ⟨hTotal, hSizes, ?_⟩
  cases hRun : briefRun with
  | error e =>
    rw [hRun] at hOk
    exact nomatch hOk
  | ok report => exact ⟨report, rfl, optimize_terminates hTotal hSizes hRun⟩

end Whole

end SwapSearch.Memetic
