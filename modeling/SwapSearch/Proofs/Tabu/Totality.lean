import SwapSearch.Proofs.Tabu.Steady
import SwapSearch.Scalar.Binary64

/-!
# SwapSearch — searches that return

A search returns if its settings sustain the iterations it is allowed. That they are
valid is not enough: with tenures that have no upper bound a walk fails at the first
optimum it has to leave, since the burst draws before its first step.

## Results

* `improve_succeeds`             — settings that last suffice.
* `Stuck.iterate_fails`          — a walk that has to leave an optimum and cannot draw.
* `improve_fails_on_open_tenure` — valid settings do not suffice.
-/

namespace SwapSearch.Tabu

variable {L α μ ρ : Type} [Landscape L α]

-- ---------------------------------------------------------------------------
-- Searches
-- ---------------------------------------------------------------------------

section Search

variable [Scalar α] [Monitor μ α] [RandomSource ρ]

theorem walk_succeeds {s : Settings α} {n limit longest steps : Nat} {w : Walk L α μ ρ}
    (hMonitor : ∀ (m : μ) (b : Budget), Succeeds (Monitor.onCharge m b) fun _ => True)
    (hCells : n * n < Word.size) (hSustains : s.Sustains n limit longest steps)
    (h : Steady s n longest 0 0 w) : Succeeds (Search.walk limit w) fun _ => True := by
  unfold Search.walk Search.walkM
  split
  · exact Succeeds.pure trivial
  · next hGuard =>
    have hTwo : 2 ≤ n := by
      have hSize := h.size
      simp only [Bool.or_eq_true, decide_eq_true_eq, not_or] at hGuard
      omega
    have hAsked := h.stopRequested
    generalize w.stopRequested = asked at hAsked ⊢
    obtain ⟨stop, v⟩ := asked
    cases stop with
    | true => exact Succeeds.pure trivial
    | false =>
      -- the first scan takes no tick
      refine Succeeds.bind (refresh_succeeds hMonitor hCells nofun hAsked) fun next hNext => ?_
      have hStart : Steady s n longest (0 * steps) 0 next := (Nat.zero_mul steps).symm ▸ hNext
      exact run_succeeds hMonitor hCells hSustains hTwo (Nat.zero_add limit).le hStart

/-- **A search that lasts returns.** With settings that sustain its iterations, a landscape that can
be scanned and a monitor that puts up with every charge, a search from a start of the right size
returns, whatever the value, the target, the budget and the random source. -/
theorem improve_succeeds (s : Search α) {start : Permutation} (value : α)
    {limit longest steps : Nat} {context : Context L μ ρ}
    (hSize : start.size = Landscape.size context.landscape)
    (hMemory : start.size * start.size * 16 < Word.addressable)
    (hSustains : s.settings.Sustains start.size limit longest steps)
    (hScannable : Scannable start.size context.landscape)
    (hMonitor : ∀ (m : μ) (b : Budget), ∃ m', Monitor.onCharge m b = .ok m') :
    ∃ outcome rest, s.improve start value limit context = .ok (outcome, rest) := by
  have hCharge : ∀ (m : μ) (b : Budget), Succeeds (Monitor.onCharge m b) fun _ => True :=
    fun m b => (hMonitor m b).imp fun _ hOk => ⟨hOk, trivial⟩
  have hCells : start.size * start.size < Word.size := by
    unfold Word.addressable at hMemory
    unfold Word.size
    omega
  -- the tables fit into memory, so a search from a start of the right size begins
  have hBegin : Succeeds (s.begin start value context)
      (Steady s.settings start.size longest 0 0) := by
    unfold Search.begin
    rw [if_neg (not_not_intro hSize)]
    refine Succeeds.bind (allocate_succeeds hMemory) fun gains hGains => ?_
    refine Succeeds.bind (Memory.allocate_succeeds hMemory) fun memory _ => ?_
    exact Succeeds.pure {
      settings_eq := rfl
      size := rfl
      table := hGains
      landscape := hScannable
      clock := le_rfl
      swaps := le_rfl
      sinceBest := le_rfl
      strength := hSustains.base }
  obtain ⟨w, hOk, hw⟩ := hBegin
  obtain ⟨final, hFinal, -⟩ := walk_succeeds hCharge hCells hSustains hw
  refine ⟨final.outcome, final.context, ?_⟩
  unfold Search.improve Search.improveM
  rw [hOk]
  show (Search.walk limit w >>= _) = _
  rw [hFinal]
  rfl

end Search

theorem sustains_default : (Settings.default : Settings ℚ).Sustains 3 6 2 8 :=
  Settings.sustains_of_valid (by decide +kernel) rfl monotone_truncated (by decide +kernel)
    (by decide +kernel) (by decide)

/-- Six iterations with the default settings. -/
theorem improve_succeeds_rising :
    falling.size = Landscape.size risingContext.landscape ∧
    falling.size * falling.size * 16 < Word.addressable ∧
    defaultSearch.settings.Sustains falling.size 6 2 8 ∧
    Scannable falling.size risingContext.landscape ∧
    (∀ (m : Silent ℚ) (b : Budget), ∃ m', Monitor.onCharge m b = .ok m') ∧
    ∃ outcome rest, defaultSearch.improve falling 1 6 risingContext = .ok (outcome, rest) := by
  have hMemory : falling.size * falling.size * 16 < Word.addressable := by decide
  have hScannable : Scannable falling.size risingContext.landscape :=
    scannable_ofEvaluation (f := fun p => rising p.values) fun _ _ => rfl
  have hMonitor : ∀ (m : Silent ℚ) (b : Budget), ∃ m', Monitor.onCharge m b = .ok m' :=
    fun m _ => ⟨m, rfl⟩
  exact ⟨rfl, hMemory, sustains_default, hScannable, hMonitor,
    improve_succeeds defaultSearch 1 rfl hMemory sustains_default hScannable hMonitor⟩

-- ---------------------------------------------------------------------------
-- Failing
-- ---------------------------------------------------------------------------

section Failing

variable [Scalar α] [Monitor μ α] [RandomSource ρ] {w w' : Walk L α μ ρ}

omit [Landscape L α] [Monitor μ α] in
theorem drawTenure_fails (hRange : ¬ Drawable w.settings.minTenure w.settings.maxTenure) :
    w.drawTenure = .error .emptyRange := by
  unfold Walk.drawTenure Random.between
  rw [if_neg (by simpa [Drawable, and_assoc] using hRange)]
  rfl

theorem directedBurst_fails {directed : α} {steps : Nat} (hSteps : 1 ≤ steps)
    (hRange : ¬ Drawable w.settings.minTenure w.settings.maxTenure)
    (hGo : w.stopRequested.1 = false) :
    Walk.directedBurst directed steps w = .error .emptyRange := by
  obtain ⟨count, rfl⟩ := Nat.exists_eq_add_of_le' hSteps
  have hSettings : w.stopRequested.2.settings = w.settings := by
    obtain ⟨monitor, hAsked⟩ := w.exists_stopRequested
    rw [hAsked]
  unfold Walk.directedBurst Walk.directedBurstM Walk.burstM
  generalize w.stopRequested = asked at hGo hSettings ⊢
  obtain ⟨stop, v⟩ := asked
  obtain rfl : stop = false := hGo
  -- the first thing a pick does is to draw a tenure
  have hPick : v.directedPick directed = .error .emptyRange := by
    unfold Walk.directedPick Walk.directedPickM
    rw [drawTenure_fails (hSettings ▸ hRange)]
    rfl
  show (v.directedPick directed >>= _) = _
  rw [hPick]
  rfl

/-- A launch leaves alone what decides whether to stop, so its burst draws at least once. -/
theorem launch_fails (hRange : ¬ Drawable w.settings.minTenure w.settings.maxTenure)
    (hGo : w.stopRequested.1 = false) : w.launch false ≠ .ok w' := by
  intro h
  obtain ⟨⟨jumped, settled⟩, hSettle, h⟩ := exists_of_bind_ok h
  obtain ⟨random, sinceBest, strength, hPositive, rfl⟩ := Walk.exists_of_settleStrength hSettle
  obtain ⟨next, hBurst, -⟩ := exists_of_bind_ok h
  rw [Walk.stopRequested_fst] at hGo
  have hFails : ∀ directed bursts,
      let v : Walk L α μ ρ := { w with context := { w.context with random }, sinceBest, strength }
      Walk.directedBurst directed v.markOptimum.strength { v.markOptimum with bursts := bursts } =
        .error .emptyRange := by
    intro directed bursts
    dsimp only
    unfold Walk.markOptimum
    split
    · exact directedBurst_fails hPositive hRange ((Walk.stopRequested_fst _).trans hGo)
    · exact directedBurst_fails hPositive hRange ((Walk.stopRequested_fst _).trans hGo)
  exact nomatch (hFails _ _).symm.trans hBurst

/-- A local optimum that the walk has to leave, with tenures that cannot be drawn. -/
structure Stuck (w : Walk L α μ ρ) : Prop where
  kind : w.settings.perturbation = .normal
  range : ¬ Drawable w.settings.minTenure w.settings.maxTenure
  goes_on : w.stopRequested.1 = false
  optimum : (w.gains.bestMove.filter (0 < ·.gain)).isNone = true

omit [Landscape L α] [RandomSource ρ] in
theorem stuck_iff (w : Walk L α μ ρ) :
    Stuck w ↔ w.settings.perturbation = .normal ∧
      ¬ Drawable w.settings.minTenure w.settings.maxTenure ∧ w.stopRequested.1 = false ∧
      (w.gains.bestMove.filter (0 < ·.gain)).isNone = true :=
  ⟨fun h => ⟨h.kind, h.range, h.goes_on, h.optimum⟩, fun h => ⟨h.1, h.2.1, h.2.2.1, h.2.2.2⟩⟩

instance (w : Walk L α μ ρ) : Decidable (Stuck w) := decidable_of_iff' _ (stuck_iff w)

/-- **No way on.** A walk that is stuck fails. -/
theorem Stuck.iterate_fails {progress : Walk.Progress L α μ ρ} (h : Stuck w) :
    w.iterate ≠ .ok progress := by
  intro hIterate
  -- it can neither climb nor settle, and its launch draws a tenure
  cases Walk.iterated_of_iterate hIterate with
  | climbed hMove hGain _ =>
    have hOptimum := h.optimum
    simp [hMove, hGain] at hOptimum
  | settled _ hKind => exact nomatch h.kind.symm.trans hKind
  | launched annealed _ hKind hLaunch =>
    cases annealed with
    | true => exact nomatch h.kind.symm.trans hKind
    | false =>
      refine launch_fails (w := w.counted) h.range ?_ hLaunch
      have hGo := h.goes_on
      rw [Walk.stopRequested_fst] at hGo ⊢
      exact hGo

/-- So does a search that is stuck after its first scan. -/
theorem walk_fails {limit : Nat} (hLimit : 1 ≤ limit) (hSize : 2 ≤ w.size)
    (hGo : w.stopRequested.1 = false)
    (hStuck : ∀ next, w.stopRequested.2.refresh none = .ok next →
      next.stopRequested.1 = false ∧ Stuck next.stopRequested.2) :
    Search.walk limit w ≠ .ok w' := by
  intro hWalk
  obtain ⟨count, rfl⟩ := Nat.exists_eq_add_of_le' hLimit
  obtain ⟨hIdle, -⟩ | ⟨-, -, hStop, -⟩ | ⟨-, -, -, next, hRefresh, hRun⟩ := exists_of_walk hWalk
  · omega
  · exact nomatch hGo.symm.trans hStop
  obtain ⟨hGo, hStuck⟩ := hStuck next hRefresh
  unfold Walk.run Walk.runM at hRun
  generalize next.stopRequested = asked at hGo hStuck hRun
  obtain ⟨stop, u⟩ := asked
  obtain rfl : stop = false := hGo
  obtain ⟨progress, hIterate, -⟩ := exists_of_bind_ok hRun
  exact hStuck.iterate_fails hIterate

end Failing

/-- A search over two positions, all solutions equal. -/
def flatContext : Context (Objective Float) (Silent Float) Random.SplitMix where
  landscape := .ofEvaluation 2 fun _ => .ok 0
  budget := .grant 2
  monitor := {}
  random := ⟨7⟩

/-- Tenures without an upper bound. -/
def openSearch : Search Float where
  settings := Settings.default.withTenure 0.9 (1 / 0)
  valid := by decide +kernel

/-- The settings are valid, all values are finite, but the search fails at the first optimum. -/
theorem improve_fails_on_open_tenure :
    openSearch.settings.defect? = none ∧
    (∀ p : Permutation, Landscape.evaluate flatContext.landscape p.values = .ok 0) ∧
    (Permutation.identity 2).size = Landscape.size flatContext.landscape ∧
    ∀ outcome rest, openSearch.improve (.identity 2) 0 1 flatContext ≠ .ok (outcome, rest) := by
  refine ⟨openSearch.valid, fun _ => rfl, rfl, fun outcome rest hImprove => ?_⟩
  obtain ⟨opened, final, hBegin, hWalk, -⟩ := Search.exists_of_improve hImprove
  -- the beginning and the first scan are evaluated; the rest fails whatever the draws are
  have hOpened : (openSearch.begin (.identity 2) 0 flatContext).toOption.all (fun w =>
      decide (2 ≤ w.size ∧ w.stopRequested.1 = false)) = true := by decide +kernel
  have hScanned : (openSearch.begin (.identity 2) 0 flatContext >>= fun w =>
      w.stopRequested.2.refresh none).toOption.all (fun w =>
        decide (w.stopRequested.1 = false ∧ Stuck w.stopRequested.2)) = true := by decide +kernel
  rw [hBegin] at hOpened hScanned
  obtain ⟨hSize, hGo⟩ := of_decide_eq_true hOpened
  refine walk_fails le_rfl hSize hGo (fun next hRefresh => ?_) hWalk
  have hNext : (opened.stopRequested.2.refresh none).toOption.all (fun w =>
      decide (w.stopRequested.1 = false ∧ Stuck w.stopRequested.2)) = true := hScanned
  rw [hRefresh] at hNext
  exact of_decide_eq_true hNext

end SwapSearch.Tabu
