import SwapSearch.Proofs.Memetic.Report
import SwapSearch.Proofs.Population.Elites

/-!
# SwapSearch — what a run remembers

A run reseeds its population from the elites. It offers them every improved seed and
every improved child, but not the mutants, although a mutant is compared with the best
member as all the others are. So the elites are the best of the seeds and the children,
and the best member need not be among them: if it is a mutant that is fitter than every
seed and every child, no elite is as fit, and reseeding loses it.

## Results

* `remembered_seeding` — while seeding, all that is searched for is offered.
* `remembered_atTop`   — at the top of the loop seeds and children have been offered.
* `elites_atTop`       — what the elites are, and when one is as fit as the best member.
* `elites_forgetful`   — a run whose best member is a mutant.
-/

namespace SwapSearch.Memetic

-- ---------------------------------------------------------------------------
-- The invariant
-- ---------------------------------------------------------------------------

/-- The elites keep the best of the offers, and these are results of local searches. -/
structure Remembered {α : Type} [ExactScalar α] (objectives : List (Objective α))
    (a₀ : Pareto.Archive α) (pending offers : List (Member α)) (b : Books α) : Prop where
  chronicled : Chronicled objectives a₀ 0 pending b.chronicle
  elites : b.elites.Keeps offers
  searched : ∀ m ∈ offers, ∃ i ∈ b.improved, m = i.member

variable {α ρ : Type} [ExactScalar α] {objectives : List (Objective α)}
  {a₀ : Pareto.Archive α} {pending offers : List (Member α)} {b b' : Books α} {m : Member α}

/-- Results of local searches have the same fitness if they have the same solution. -/
theorem coherent_of_chronicled {least : Nat} {g : Chronicle α}
    (h : Chronicled objectives a₀ least pending g)
    (hSearched : ∀ m ∈ offers, ∃ i ∈ g.improved, m = i.member) : EliteSet.Coherent offers where
  number := fun m _ => OrderedScalar.isNaN_of_isFinite (ExactScalar.isFinite_eq_true _)
  same := by
    intro m hm m' hm' hSame
    obtain ⟨i, hi, rfl⟩ := hSearched m hm
    obtain ⟨j, hj, rfl⟩ := hSearched m' hm'
    rw [(h.made i hi).solution_eq, (h.made j hj).solution_eq] at hSame
    have hVector := (h.made i hi).vector
    rw [hSame, (h.made j hj).vector] at hVector
    rw [(h.made i hi).fitness_eq, (h.made j hj).fitness_eq, Except.ok.inj hVector]

namespace Remembered

theorem consistent (h : Remembered objectives a₀ pending offers b) : EliteSet.Consistent offers :=
  (coherent_of_chronicled h.chronicled h.searched).consistent

theorem charge (h : Remembered objectives a₀ pending offers b) (units : Nat) :
    Remembered objectives a₀ pending offers (b.charge units) :=
  { h with }

theorem compare (h : Remembered objectives a₀ (m :: pending) offers b) :
    Remembered objectives a₀ pending offers (b.compare m) := by
  have hChronicled := h.chronicled.compare
  rw [← Books.chronicle_compare] at hChronicled
  refine ⟨hChronicled, ?_, ?_⟩
  · rw [Books.elites_compare]
    exact h.elites
  · rw [Books.improved_compare]
    exact h.searched

/-- A pending member is compared with the best and offered to the elites. -/
theorem settle [RankedScalar α] (h : Remembered objectives a₀ (m :: pending) offers b) :
    Remembered objectives a₀ pending (m :: offers) ((b.compare m).offer m) := by
  have hHere := h.chronicled.waiting m (List.mem_cons_self ..)
  have hSearched : ∀ x ∈ m :: offers, ∃ i ∈ b.improved, x = i.member :=
    List.forall_mem_cons.mpr ⟨hHere, h.searched⟩
  have hConsistent := (coherent_of_chronicled h.chronicled hSearched).consistent
  have hCompared := h.compare
  refine ⟨hCompared.chronicled, hCompared.elites.offer hConsistent, ?_⟩
  show ∀ x ∈ m :: offers, ∃ i ∈ (b.compare m).improved, x = i.member
  rw [Books.improved_compare]
  exact hSearched

end Remembered

-- ---------------------------------------------------------------------------
-- Steps
-- ---------------------------------------------------------------------------

section Steps

variable [RandomSource ρ] (hContract : ∀ o ∈ objectives, ∃ f, HonoursGains f o)

include hContract

/-- **Improving.** Nothing is offered to the elites yet. -/
theorem remembered_improving (h : Remembered objectives a₀ pending offers b)
    (hImproving : Books.Improving ρ b m b') :
    Remembered objectives a₀ (m :: pending) offers b' ∧
      b'.improved.map (·.member) = m :: b.improved.map (·.member) := by
  have hChronicled := chronicled_improving hContract h.chronicled hImproving
  obtain ⟨i, rfl, hImproves⟩ := Books.improves_of_improving hImproving
  obtain ⟨spent, outlook, -, -, rfl⟩ := hImproves.books
  refine ⟨⟨hChronicled.weaken (Nat.zero_le _), h.elites, fun x hx => ?_⟩, rfl⟩
  obtain ⟨k, hk, hEq⟩ := h.searched x hx
  exact ⟨k, List.mem_cons_of_mem _ hk, hEq⟩

variable [RankedScalar α]

/-- Mutants are not offered, children are. -/
theorem remembered_invariant :
    Books.Invariant ρ fun pending offers b => Remembered objectives a₀ pending offers b where
  improve _ h hImproving := (remembered_improving hContract h hImproving).1
  settle h := h.settle
  count h := { h with }
  evaluate _ h hImproving := (remembered_improving hContract (h.charge 1) hImproving).1
  compare h := h.compare

/-- While seeding, all that has been searched for is pending or has been offered. -/
theorem remembered_seeding :
    Books.SeedInvariant ρ fun pending offers b => Remembered objectives a₀ pending offers b ∧
      b.improved.map (·.member) = pending ++ offers where
  improve := by
    rintro pending offers b m b' - ⟨h, hAll⟩ hImproving
    obtain ⟨hGrown, hMembers⟩ := remembered_improving hContract h hImproving
    exact ⟨hGrown, hMembers.trans (congrArg (m :: ·) hAll)⟩
  settle := by
    rintro offers b m ⟨h, hAll⟩
    refine ⟨h.settle, ?_⟩
    show (b.compare m).improved.map (·.member) = m :: offers
    rw [Books.improved_compare]
    exact hAll

-- ---------------------------------------------------------------------------
-- Whole runs
-- ---------------------------------------------------------------------------

variable {evaluations : Nat} {settings : Settings α} {clock : Clock} {random : ρ}
  {start top : Run α ρ} {children : List (Member α)}

theorem remembered_prepare
    (hPrepare : Run.prepare objectives evaluations settings clock random = .ok start) :
    ∃ a₀, Remembered objectives a₀ [] (start.improved.map (·.member)) start.books := by
  obtain ⟨-, begun, first, hBegun, hFirst, hRest⟩ := begun_of_prepare hPrepare
  refine ⟨begun.archive, ?_⟩
  have hOpened : Remembered objectives begun.archive [] []
      (begun.charge settings.populationSize) :=
    ⟨chronicled_of_begun hBegun, EliteSet.keeps_empty hBegun.elites, nofun⟩
  have hNone : (begun.charge settings.populationSize).improved = [] := hBegun.improved
  obtain ⟨seeds, hSeeded, hAll⟩ := (remembered_seeding hContract).seeds (fun hImproving => by
    have hFirst := remembered_improving hContract hOpened hImproving
    rwa [hNone] at hFirst) hFirst hRest
  have hAll : start.improved.map (·.member) = seeds := hAll
  rwa [hAll]

/-- **The top of the loop.** The children have been offered, and the seeds before them. -/
theorem remembered_atTop (h : Remembered objectives a₀ [] offers start.books)
    (hTop : start.AtTop children top) :
    Remembered objectives a₀ [] (children ++ offers) top.books :=
  hTop.invariant (remembered_invariant hContract) offers h

/-- **The elites** at the top of the loop are the best of the seeds and the children. One of them
is as fit as the best member exactly when a seed or a child is; otherwise the best member is a
mutant. -/
theorem elites_atTop
    (hAbove : ∀ o ∈ objectives, ∀ (p : Permutation) v, p.size = o.size →
      o.evaluate p.values = .ok v → Scalar.negInf < v)
    (hPrepare : Run.prepare objectives evaluations settings clock random = .ok start)
    (hTop : start.AtTop children top) :
    top.elites.Keeps (children ++ start.improved.map (·.member)) ∧
    (∃ i ∈ top.improved, top.best = i.member) ∧
    (∀ i ∈ top.improved, i.member.fitness ≤ top.best.fitness) ∧
    ((∃ e ∈ top.elites.members, e.fitness = top.best.fitness) ↔
      ∃ m ∈ children ++ start.improved.map (·.member), m.fitness = top.best.fitness) := by
  obtain ⟨a₀, hStart⟩ := remembered_prepare hContract hPrepare
  have hRemembered := remembered_atTop hContract hStart hTop
  obtain ⟨⟨n, hSizes⟩, a₁, hArchive, hPrepared⟩ := chronicled_prepare hContract hPrepare
  have hNonempty : objectives ≠ [] := by
    rintro rfl
    exact nomatch hArchive
  have hChronicled := chronicled_atTop hContract hPrepared hTop
  have hBest := (hChronicled.exists_best hSizes hAbove hNonempty).1
  have hGreatest : ∀ i ∈ top.improved, i.member.fitness ≤ top.best.fitness :=
    fun i hi => (hChronicled.settled i hi).resolve_left List.not_mem_nil
  refine ⟨hRemembered.elites, hBest, hGreatest, ?_, ?_⟩
  · rintro ⟨e, he, hEq⟩
    exact ⟨e, hRemembered.elites.offered e he, hEq⟩
  · -- an elite at least as fit exists, and no improvement is fitter than the best
    rintro ⟨m, hm, hEq⟩
    obtain ⟨e, he, hLe⟩ := hRemembered.elites.exists_le hRemembered.consistent hm
    obtain ⟨i, hi, rfl⟩ := hRemembered.searched e (hRemembered.elites.offered e he)
    exact ⟨i.member, he, le_antisymm (hGreatest i hi) (hEq ▸ hLe)⟩

end Steps

-- ---------------------------------------------------------------------------
-- A best member that is not remembered
-- ---------------------------------------------------------------------------

/-- The first position counts twice, the second once. -/
def lopsided : List (Objective ℚ) :=
  [.ofEvaluation 3 fun values => .ok (2 * (values.getD 0 0 : ℚ) + (values.getD 1 0 : ℚ))]

/-- No local search, and mutation after every child. -/
def burstSettings : Settings ℚ :=
  { Settings.default with
    populationSize := 2
    improvementDepth := 0
    tournamentSize := 1
    mutationFrequency := 1
    mutationStrength := 0
    mutationGrowth := 1
    eliteCapacity := 1 }

def burstRun : Except Failure (Report ℚ Random.SplitMix) :=
  optimize lopsided 9 burstSettings (.ticking 1) ⟨18⟩

theorem honoursGains_lopsided : ∀ o ∈ lopsided, ∃ f, HonoursGains f o :=
  List.forall_mem_singleton.mpr
    ⟨fun p => 2 * (p.values.getD 0 0 : ℚ) + (p.values.getD 1 0 : ℚ),
      honoursGains_ofEvaluation fun _ _ => rfl⟩

theorem negInf_lt_lopsided : ∀ o ∈ lopsided, ∀ (p : Permutation) v, p.size = o.size →
    o.evaluate p.values = .ok v → Scalar.negInf < v := by
  have hBelow : (Scalar.negInf : ℚ) < 0 := by decide +kernel
  refine List.forall_mem_singleton.mpr ?_
  rintro p v - hValue
  obtain rfl := Except.ok.inj hValue
  exact hBelow.trans_le (by positivity)

/-- The run ends at a top of its loop. -/
theorem exists_burst : ∃ start children top,
    Run.prepare lopsided 9 burstSettings (.ticking 1) (⟨18⟩ : Random.SplitMix) = .ok start ∧
    start.AtTop children top ∧ top.best.fitness = 5 ∧
    top.elites.members.toList.map (·.fitness) = [4] := by
  have hEnd : burstRun.toOption.map (fun report =>
      (report.run.best.fitness, report.run.elites.members.toList.map (·.fitness))) =
      some (5, [4]) := by decide +kernel
  cases hRun : burstRun with
  | error e =>
    rw [hRun] at hEnd
    exact nomatch hEnd
  | ok report =>
    rw [hRun] at hEnd
    obtain ⟨hBest, hElites⟩ := Prod.mk.inj (Option.some.inj hEnd)
    obtain ⟨start, children, top, -, -, hPrepare, hTop, -, -, -, -, hBooks⟩ :=
      exists_of_optimize hRun
    -- the last look changes neither the best member nor the elites
    have hSame : report.run.best = top.best := congrArg Books.best hBooks
    have hThere : report.run.elites = top.elites := congrArg Books.elites hBooks
    rw [hSame] at hBest
    rw [hThere] at hElites
    exact ⟨start, children, top, hPrepare, hTop, hBest, hElites⟩

theorem elites_atTop_burst :
    (∀ o ∈ lopsided, ∃ f, HonoursGains f o) ∧
    (∀ o ∈ lopsided, ∀ (p : Permutation) v, p.size = o.size → o.evaluate p.values = .ok v →
      Scalar.negInf < v) ∧
    ∃ start children top,
      Run.prepare lopsided 9 burstSettings (.ticking 1) (⟨18⟩ : Random.SplitMix) = .ok start ∧
      start.AtTop children top ∧
      top.elites.Keeps (children ++ start.improved.map (·.member)) ∧
      (∃ i ∈ top.improved, top.best = i.member) ∧
      (∀ i ∈ top.improved, i.member.fitness ≤ top.best.fitness) ∧
      ((∃ e ∈ top.elites.members, e.fitness = top.best.fitness) ↔
        ∃ m ∈ children ++ start.improved.map (·.member), m.fitness = top.best.fitness) := by
  obtain ⟨start, children, top, hPrepare, hTop, -, -⟩ := exists_burst
  exact ⟨honoursGains_lopsided, negInf_lt_lopsided, start, children, top, hPrepare, hTop,
    elites_atTop honoursGains_lopsided negInf_lt_lopsided hPrepare hTop⟩

/-- The best member has the fitness 5. The only elite has the fitness 4. -/
theorem elites_forgetful : ∃ start children top,
    Run.prepare lopsided 9 burstSettings (.ticking 1) (⟨18⟩ : Random.SplitMix) = .ok start ∧
    start.AtTop children top ∧
    ¬ ∃ e ∈ top.elites.members, e.fitness = top.best.fitness := by
  obtain ⟨start, children, top, hPrepare, hTop, hBest, hElites⟩ := exists_burst
  refine ⟨start, children, top, hPrepare, hTop, ?_⟩
  rintro ⟨e, he, hEq⟩
  have hMem := List.mem_map_of_mem (f := (·.fitness)) (Array.mem_toList_iff.mpr he)
  rw [hElites, hEq, hBest, List.mem_singleton] at hMem
  exact absurd hMem (by decide)

end SwapSearch.Memetic
