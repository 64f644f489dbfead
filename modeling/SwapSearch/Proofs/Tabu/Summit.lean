import SwapSearch.Proofs.Tabu.Dialogue
import SwapSearch.Proofs.BestMove

/-!
# SwapSearch — where a climb settles

Without perturbation a search climbs until no exchange gains, and settles there. But it
returns the best solution on record, and that one may lie behind: a climb that gains no
more than the tolerance is not recorded, and neither is a chain of such climbs until
together they gain more.

Still the best is as good as settled. When the walk left it, it did so by the move of
steepest ascent, and what that move led to does not beat the best. So no exchange of the
best leads to anything that beats it. This stays true while the walk climbs on, until it
finds a new best.

Integers that differ do so by more than the tolerance. If all values are integers, what
does not beat the best is no better at all.

## Results

* `Near.le_of_integers` — among integers, nearly a local optimum is a local optimum.
* `leading_of_climb`    — a climb leaves a best that no exchange beats.
* `improve_settles`     — no exchange beats what a search returns that has settled.
-/

namespace SwapSearch.Tabu

open Observed

variable {L α μ ρ : Type} [ExactScalar α] {f : Permutation → α}

/-- No exchange raises the value of `p` by more than the tolerance. -/
def Near (f : Permutation → α) (p : Permutation) : Prop :=
  ∀ i j, i < j → j < p.size → f (p.swap i j) ≤ f p + Scalar.tolerance

/-- Two integers differ by more than the tolerance if they differ. -/
theorem Near.le_of_integers {p : Permutation} (h : Near f p)
    (hIntegers : ∀ q : Permutation, q.size = p.size → ∃ k : ℤ, f q = k) {i j : Nat} (hij : i < j)
    (hj : j < p.size) : f (p.swap i j) ≤ f p := by
  obtain ⟨k, hk⟩ := hIntegers p rfl
  obtain ⟨l, hl⟩ := hIntegers (p.swap i j) (Permutation.size_swap ..)
  have hClose : f (p.swap i j) ≤ f p + Scalar.tolerance := h i j hij hj
  rw [hk, hl] at hClose ⊢
  have hBelow : (l : α) < k + 1 :=
    hClose.trans_lt (by simpa using ExactScalar.tolerance_lt_one)
  have hLe : l < k + 1 := by exact_mod_cast hBelow
  exact_mod_cast Int.lt_add_one_iff.mp hLe

/-- The walk stands at the best on record, or no exchange of the best beats it. -/
def Leading (f : Permutation → α) (g : Ledger L α) : Prop := g.current = g.best ∨ Near f g.best

variable [Landscape L α] {l₀ : L} {start : Permutation} {w w' : Walk L α μ ρ}

/-- The gains of a sound walk are differences of values. -/
theorem Sound.gain_eq (hContract : HonoursGains f l₀) (h : Sound f l₀ start w) {i j : Nat}
    (hij : i < j) (hj : j < w.size) :
    w.gains.gain i j = f (w.current.swap i j) - f w.current :=
  hContract.gains h.1.scanned i j hij hj

/-- The move of steepest ascent leads to the best neighbour. -/
theorem Sound.le_of_bestMove (hContract : HonoursGains f l₀) (h : Sound f l₀ start w) {m : Move α}
    (hBest : w.gains.bestMove = some m) {i j : Nat} (hij : i < j) (hj : j < w.size) :
    f (w.current.swap i j) ≤ f (w.current.swap m.first m.second) := by
  have hTable : w.gains.size = w.size := h.gains_size hContract
  obtain ⟨hFirst, hSecond, hGain⟩ :=
    GainTable.mem_moves.mp (GainTable.mem_moves_of_bestMove hBest)
  have hLe : w.gains.gain i j ≤ w.gains.gain m.first m.second :=
    hGain ▸ GainTable.gain_le_of_bestMove hBest hij (by omega)
  rw [h.gain_eq hContract hij hj, h.gain_eq hContract hFirst (by omega)] at hLe
  exact sub_le_sub_iff_right _ |>.mp hLe

/-- Where no exchange gains, the best is nearly a local optimum. -/
theorem Sound.near_of_optimum (hContract : HonoursGains f l₀) (h : Sound f l₀ start w)
    (hLeading : Leading f w.ledger) (hOptimum : w.gains.bestMove.filter (0 < ·.gain) = none) :
    Near f w.best := by
  obtain hHere | hNear := hLeading
  · have hHere : w.current = w.best := hHere
    rw [← hHere]
    intro i j hij hj
    have hTable : w.gains.size = w.size := h.gains_size hContract
    have hNone : w.gains.gain i j ≤ 0 :=
      GainTable.gain_nonpos_of_bestMove hOptimum hij (hTable ▸ hj)
    rw [h.gain_eq hContract hij hj] at hNone
    exact (sub_nonpos.mp hNone).trans (le_add_of_nonneg_right ExactScalar.tolerance_nonneg)
  · exact hNear

variable [Monitor μ α]

/-- **A climb leaves a best that no exchange beats**, or it finds a new best. -/
theorem leading_of_climb (hContract : HonoursGains f l₀) {m : Move α}
    (hSound : Sound f l₀ start w) (hLeading : Leading f w.ledger)
    (hBest : w.gains.bestMove = some m) (h : w.climb m = .ok w') :
    Sound f l₀ start w' ∧ Leading f w'.ledger := by
  obtain ⟨next, hExchange, h⟩ := exists_of_bind_ok h
  obtain rfl := Except.ok.inj h
  obtain ⟨hij, hj⟩ := GainTable.lt_of_mem_moves (GainTable.mem_moves_of_bestMove hBest)
  have hTable : w.gains.size = w.size := hSound.gains_size hContract
  have hMoved : Moved f l₀ start next :=
    moved_of_exchange hContract hij (hTable ▸ hj) hSound hExchange
  refine ⟨hMoved.sound_recordIfBetter.of_ledger_eq rfl, ?_⟩
  show Leading f next.recordIfBetter.ledger
  rw [Walk.ledger_recordIfBetter]
  cases hBetter : next.isBetter with
  | true => exact Or.inl rfl
  | false =>
    obtain ⟨landscape, gains, -, hLedger⟩ := Walk.ledger_of_exchange hExchange
    -- where the move has led does not beat the best, and no other move leads higher
    have hCovered := (hMoved.sound_of_not_better hBetter).2.covers_current
    rw [if_neg Bool.false_ne_true]
    rw [hLedger] at hCovered ⊢
    refine Or.inr ?_
    -- either the walk has just left the best, or the best was near its top already
    obtain hHere | hNear := hLeading
    · have hHere : w.current = w.best := hHere
      have hBestValue : w.bestValue = f w.best := hSound.2.bestValue_eq
      show Near f w.best
      rw [← hHere] at hBestValue ⊢
      intro i j hi hjSize
      calc f (w.current.swap i j)
          ≤ f (w.current.swap m.first m.second) := hSound.le_of_bestMove hContract hBest hi hjSize
        _ ≤ w.bestValue + Scalar.tolerance := sub_le_iff_le_add.mp hCovered
        _ = f w.current + Scalar.tolerance := by rw [hBestValue]
    · exact hNear

variable [RandomSource ρ]

/-- Without perturbation every iteration climbs or settles. -/
theorem leading_of_iterate (hContract : HonoursGains f l₀)
    (hKind : w.settings.perturbation = .disabled) (hSound : Sound f l₀ start w)
    (hLeading : Leading f w.ledger) {progress : Walk.Progress L α μ ρ}
    (h : w.iterate = .ok progress) :
    Sound f l₀ start progress.walk ∧ Leading f progress.walk.ledger := by
  cases Walk.iterated_of_iterate h with
  | climbed hMove _ hClimb =>
    exact leading_of_climb (w := w.counted) hContract (hSound.of_ledger_eq rfl) hLeading hMove
      hClimb
  | settled _ _ => exact ⟨hSound.of_ledger_eq rfl, hLeading⟩
  | launched annealed _ hOther _ =>
    rw [hKind] at hOther
    cases annealed <;> exact nomatch hOther

/-- What holds of a search without perturbation between its iterations. -/
structure Climbing (f : Permutation → α) (l₀ : L) (start : Permutation) (w : Walk L α μ ρ) :
    Prop where
  sound : Sound f l₀ start w
  leading : Leading f w.ledger
  kind : w.settings.perturbation = .disabled

theorem climbing_of_run (hContract : HonoursGains f l₀) {limit : Nat}
    (hw : Climbing f l₀ start w) (h : Walk.run limit w = .ok w') : Climbing f l₀ start w' := by
  have hAsk : ∀ w : Walk L α μ ρ, Climbing f l₀ start w →
      Climbing f l₀ start w.stopRequested.2 := by
    intro w hw
    refine ⟨hw.sound.stopRequested, ?_, ?_⟩
    · rw [Walk.ledger_stopRequested]
      exact hw.leading
    · exact (congrArg (·.settings.perturbation) w.plan_stopRequested).trans hw.kind
  have hIterate : ∀ w : Walk L α μ ρ, Climbing f l₀ start w →
      Upholds w.observeIterate (fun _ => True) fun progress =>
        Climbing f l₀ start progress.walk := by
    intro w hw
    refine Upholds.of_result fun progress hIterate => ?_
    rw [Walk.result_observeIterate] at hIterate
    obtain ⟨hSound, hLeading⟩ := leading_of_iterate hContract hw.kind hw.sound hw.leading hIterate
    refine ⟨hSound, hLeading, ?_⟩
    exact (congrArg (·.settings.perturbation) (Walk.plan_of_iterate hIterate).1).trans hw.kind
  -- nothing is asked of what is seen, since only the result matters
  have hRun := upholds_observeRun_of_iterate (fun w hw => ⟨hAsk w hw, fun _ => hAsk w hw⟩)
    hIterate limit hw
  exact hRun.result w' ((Walk.result_observeRun limit w).trans h)

/-- A walk that ends early, though nobody has told it to stop, has settled. -/
theorem near_of_walk (hContract : HonoursGains f l₀) (hSize : start.size = Landscape.size l₀)
    {blank : GainTable α} (hBlank : blank.size = start.size) {limit : Nat}
    (hOpening : w.ledger = Ledger.opening l₀ start (f start) blank)
    (hKind : w.settings.perturbation = .disabled) (hTarget : w.target = none)
    (hTwo : 2 ≤ w.size) (h : Search.walk limit w = .ok w') (hFewer : w'.iterations < limit)
    (hLeft : w'.context.budget.isExhausted = false) (hQuiet : ¬ HasAsked w'.context.monitor) :
    Near f w'.best := by
  have hAsked := w.plan_stopRequested
  -- the walk is idle, told to stop at once, or it runs
  obtain ⟨hIdle, rfl⟩ | ⟨-, -, hStop, rfl⟩ | ⟨-, -, -, next, hRefresh, hRun⟩ := exists_of_walk h
  · omega
  · have hNone : w.stopRequested.2.target = none :=
      (congrArg Plan.target hAsked).trans hTarget
    obtain hBudget | hMonitor | ⟨target, hSome, -⟩ := told_of_stopRequested hStop
    · exact nomatch hLeft.symm.trans hBudget
    · exact absurd hMonitor hQuiet
    · exact nomatch hNone.symm.trans hSome
  · have hNext : next.plan = w.plan := (Walk.plan_of_refresh hRefresh).trans hAsked
    have hScanned : Sound f l₀ start next :=
      sound_of_refresh hSize hBlank ((Walk.ledger_stopRequested w).trans hOpening) hRefresh
    have hStart : Leading f next.ledger := by
      obtain ⟨landscape, gains, -, hLedger⟩ := Walk.ledger_of_refresh hRefresh
      rw [hLedger, Walk.ledger_stopRequested, hOpening]
      exact Or.inl rfl
    -- from the first scan on the walk climbs, and nothing else can happen to it
    have hClimbing : Climbing f l₀ start next :=
      ⟨hScanned, hStart, (congrArg (·.settings.perturbation) hNext).trans hKind⟩
    have hFinal := climbing_of_run hContract hClimbing hRun
    obtain ⟨hEnded, made, -, hPlan⟩ := ended_of_run hRun
    rw [hNext] at hPlan
    -- of the reasons to end, only settling is left
    cases hEnded with
    | spent hCount => omega
    | exhausted hBudget => exact nomatch hLeft.symm.trans hBudget
    | asked hMonitor => exact absurd hMonitor hQuiet
    | reached hSome _ =>
      have hNone : w'.target = none := (congrArg Plan.target hPlan).trans hTarget
      exact nomatch hNone.symm.trans hSome
    | settled _ hOptimum =>
      exact hFinal.sound.near_of_optimum hContract hFinal.leading hOptimum

-- ---------------------------------------------------------------------------
-- Searches
-- ---------------------------------------------------------------------------

variable {s : Search α} {value : α} {limit : Nat} {context rest : Context L μ ρ}
  {outcome : Outcome α}

/-- **No exchange beats what a search returns that has settled.** In a landscape that honours its
gains, let a search without perturbation and without a target return from a start with its value,
with fewer iterations than allowed, without having used up the budget and without having been asked
to stop by the monitor. Then no exchange raises the value of what it returns by more than the
tolerance, and if all values are integers none raises it at all. -/
theorem improve_settles (hContract : HonoursGains f context.landscape)
    (hValue : Landscape.evaluate context.landscape start.values = .ok value)
    (hKind : s.settings.perturbation = .disabled) (hTarget : s.target = none)
    (h : s.improve start value limit context = .ok (outcome, rest))
    (hFewer : outcome.iterations < limit) (hLeft : rest.budget.isExhausted = false)
    (hQuiet : ¬ HasAsked rest.monitor) :
    Landscape.evaluate context.landscape outcome.solution.values = .ok outcome.value ∧
    ∀ i j, i < j → j < start.size → ∃ v,
      Landscape.evaluate context.landscape (outcome.solution.swap i j).values = .ok v ∧
      v ≤ outcome.value + Scalar.tolerance ∧
      ((∀ p : Permutation, p.size = start.size → ∃ k : ℤ, f p = k) → v ≤ outcome.value) := by
  have hFound := bestVisited_of_improve hContract hValue h
  have hFoundSize := size_of_mem_visited hFound.visited
  obtain ⟨opened, final, hBegin, hWalk, rfl, rfl⟩ := Search.exists_of_improve h
  obtain ⟨hSize, blank, memory, hBlank, -, rfl⟩ := Search.exists_of_begin hBegin
  obtain rfl : value = f start :=
    Except.ok.inj (hValue.symm.trans (hContract.evaluate start hSize))
  refine ⟨hFound.value, fun i j hij hj => ?_⟩
  have hTwo : 2 ≤ start.size := by omega
  -- what is near the top is the best on record, which is what the search returns
  have hNear : Near f final.best :=
    near_of_walk (w := s.opened start (f start) context blank memory) hContract hSize
      (GainTable.size_of_allocate hBlank) rfl hKind hTarget hTwo hWalk hFewer hLeft hQuiet
  have hBestSize : final.best.size = start.size := hFoundSize
  have hBestValue : final.bestValue = f final.best :=
    Except.ok.inj (hFound.value.symm.trans (hContract.evaluate _ (hFoundSize.trans hSize)))
  have hNeighbour : (final.best.swap i j).size = Landscape.size context.landscape :=
    (Permutation.size_swap ..).trans (hBestSize.trans hSize)
  refine ⟨f (final.best.swap i j), hContract.evaluate _ hNeighbour, ?_, fun hIntegers => ?_⟩
  · show f (final.best.swap i j) ≤ final.bestValue + Scalar.tolerance
    rw [hBestValue]
    exact hNear i j hij (hBestSize ▸ hj)
  · show f (final.best.swap i j) ≤ final.bestValue
    rw [hBestValue]
    exact hNear.le_of_integers (hBestSize ▸ hIntegers) hij (hBestSize ▸ hj)

def climbingSearch : Search ℚ where
  settings := { Settings.default with perturbation := .disabled }
  valid := by decide +kernel

def hurriedContext : Context (Objective ℚ) (Patience ℚ) Random.SplitMix where
  landscape := risingContext.landscape
  budget := Budget.grant 100
  monitor := ⟨9⟩
  random := ⟨7⟩

/-- The climb leads to the sorted solution, where no exchange gains. -/
theorem improve_settles_rising :
    HonoursGains (fun p => rising p.values) hurriedContext.landscape ∧
    Landscape.evaluate hurriedContext.landscape falling.values = .ok 1 ∧
    climbingSearch.settings.perturbation = .disabled ∧ climbingSearch.target = none ∧
    ∃ outcome rest, climbingSearch.improve falling 1 6 hurriedContext = .ok (outcome, rest) ∧
      outcome.iterations < 6 ∧ rest.budget.isExhausted = false ∧ ¬ HasAsked rest.monitor ∧
      ∀ i j, i < j → j < 3 → ∃ v,
        Landscape.evaluate hurriedContext.landscape (outcome.solution.swap i j).values = .ok v ∧
        v ≤ outcome.value := by
  have hContract : HonoursGains (fun p => rising p.values) hurriedContext.landscape :=
    honoursGains_ofEvaluation fun _ _ => rfl
  have hValue : Landscape.evaluate hurriedContext.landscape falling.values = .ok 1 := by
    decide +kernel
  have hKind : climbingSearch.settings.perturbation = .disabled := rfl
  have hRun : (climbingSearch.improve falling 1 6 hurriedContext).toOption.map (fun returned =>
      decide (returned.1.iterations < 6 ∧ returned.2.budget.isExhausted = false ∧
        (Monitor.poll returned.2.monitor).1 = false)) = some true := by decide +kernel
  obtain ⟨⟨outcome, rest⟩, hReturned, hChecked⟩ := exists_of_toOption_map hRun
  obtain ⟨hFewer, hLeft, hGo⟩ := of_decide_eq_true hChecked
  have hQuiet : ¬ HasAsked rest.monitor := by
    rw [hasAsked_iff fun _ => rfl, hGo]
    exact Bool.false_ne_true
  obtain ⟨-, hPeak⟩ := improve_settles hContract hValue hKind rfl hReturned hFewer hLeft hQuiet
  refine ⟨hContract, hValue, hKind, rfl, outcome, rest, hReturned, hFewer, hLeft, hQuiet, ?_⟩
  intro i j hij hj
  obtain ⟨v, hEvaluated, -, hIntegers⟩ := hPeak i j hij hj
  exact ⟨v, hEvaluated, hIntegers fun p _ => ⟨_, (Int.cast_natCast _).symm⟩⟩

/-- The tolerance is needed: a climb that gains no more is not recorded. -/
example : (climbingSearch.improve (Permutation.identity 2) 0 10 slightContext).toOption.map
    (fun returned => (returned.1.iterations, returned.1.value, returned.1.solution.values)) =
      some (2, 0, #[0, 1]) := by decide +kernel

end SwapSearch.Tabu
