import SwapSearch.Proofs.Tabu.Success

/-!
# SwapSearch — walks that cannot fail

A walk with valid settings can still break off. Validation compares the ends of the
tenure range but not their distance from infinity, and drawing from an unbounded
range is a breach. It only wants the jump to be finite, and a burst whose base length
is the largest word cannot grow. So more has to be asked of settings that are to
last: the ranges in use can be drawn from, and the steps of all bursts together fit
into a word. `Settings.Sustains` says this for a number of iterations.

Then nothing else can go wrong, whatever the budget, the target and the random source
are, as long as the landscape can be scanned and the monitor puts up with every charge.
The invariant `Steady` bounds the counters of a walk by the time that has passed: the
clock by the steps of bursts and climbs so far, everything else by the iterations.

## Results

* `sustains_of_valid` — in exact arithmetic only the lengths of the bursts can be too much.
* `burst_succeeds`    — bursts of either kind.
* `launch_succeeds`   — what happens at an optimum.
* `iterate_succeeds`  — one iteration.
* `run_succeeds`      — all of them.
-/

namespace SwapSearch.Tabu

open Observed

-- ---------------------------------------------------------------------------
-- Settings that last
-- ---------------------------------------------------------------------------

/-- The settings last for `limit` iterations on `n` positions: the ranges in use can be drawn from,
burst lengths that are not counted up to are at most `longest`, and no burst takes more than `steps`
steps. -/
structure Settings.Sustains {α : Type} [Scalar α] (s : Settings α)
    (n limit longest steps : Nat) : Prop where
  tenure : s.perturbation ≠ .disabled → Drawable s.minTenure s.maxTenure
  stagnation : s.perturbation = .normal → Drawable s.minStagnation s.maxStagnation
  base : s.perturbation ≠ .disabled → jumpLength s.jump n ≤ longest
  drawn : s.perturbation = .normal → ∀ k < resolution,
    max (Scalar.toWord (drawnAt s.minStagnation s.maxStagnation k * (n : α))) 2 ≤ longest
  counted : s.perturbation ≠ .disabled → longest + limit ≤ steps
  /-- A ramp is longer than its burst would be, the further stagnation has gone. -/
  ramp : s.perturbation = .annealed → ∀ strength ≤ longest + limit, ∀ sinceBest ≤ limit,
    Scalar.toWord ((strength : α) *
      Scalar.larger ((sinceBest : α) / (s.stagnationAfter : α)) 1) ≤ steps
  positive : 1 ≤ steps
  total : limit * steps < Word.size

section Exact

variable {α : Type} [ExactScalar α] {s : Settings α}

/-- Nothing is infinite in exact arithmetic, so what validation asks of the ranges is enough. -/
theorem Settings.drawable_of_valid (hValid : s.defect? = none) :
    Drawable s.minTenure s.maxTenure ∧ Drawable s.minStagnation s.maxStagnation := by
  have hDrawable : ∀ lo hi : α, ¬ hi < lo → Drawable lo hi := fun lo hi h =>
    ⟨not_lt.mp h, ExactScalar.isFinite_eq_true _, ExactScalar.isFinite_eq_true _,
      ExactScalar.isFinite_eq_true _⟩
  -- the checks of the two ranges come last, one after the other
  unfold Settings.defect? at hValid
  split at hValid
  · exact nomatch hValid
  · split at hValid
    · exact nomatch hValid
    · next hStagnation =>
      split at hValid
      · exact nomatch hValid
      · next hTenure => exact ⟨hDrawable _ _ hTenure, hDrawable _ _ hStagnation⟩

/-- Valid settings last in exact arithmetic if their bursts, the longest growing by one in every
iteration, fit into a word. -/
theorem Settings.sustains_of_valid {n limit longest : Nat} (hValid : s.defect? = none)
    (hNormal : s.perturbation = .normal) (hMono : Monotone (Scalar.toWord : α → Nat))
    (hBase : jumpLength s.jump n ≤ longest)
    (hJump : max (Scalar.toWord (s.maxStagnation * (n : α))) 2 ≤ longest)
    (hTotal : limit * (longest + limit) < Word.size) :
    s.Sustains n limit longest (longest + limit) := by
  obtain ⟨hTenure, hStagnation⟩ := drawable_of_valid hValid
  exact {
    tenure := fun _ => hTenure
    stagnation := fun _ => hStagnation
    base := fun _ => hBase
    drawn := fun _ k hk => by
      -- the longest jump is drawn at the upper end of the range
      have hDrawn := mul_le_mul_of_nonneg_right (drawnAt_le hStagnation.1 hk) (Nat.cast_nonneg n)
      exact (max_le_max (hMono hDrawn) le_rfl).trans hJump
    counted := fun _ => le_rfl
    ramp := fun hAnnealed => nomatch hNormal.symm.trans hAnnealed
    positive := by omega
    total := hTotal }

end Exact

-- ---------------------------------------------------------------------------
-- The invariant
-- ---------------------------------------------------------------------------

variable {L α μ ρ : Type} [Landscape L α]

/-- A walk on `n` positions after `ticks` steps and in its `rounds`-th iteration. -/
structure Steady (s : Settings α) (n longest ticks rounds : Nat) (w : Walk L α μ ρ) : Prop where
  settings_eq : w.settings = s
  size : w.size = n
  table : w.gains.size = n
  landscape : Scannable n w.context.landscape
  clock : w.clock ≤ ticks
  swaps : w.swaps ≤ w.clock
  sinceBest : w.sinceBest ≤ rounds
  strength : s.perturbation ≠ .disabled → w.strength ≤ longest + rounds

/-- A pair of positions, if any. -/
def IsPair (n : Nat) (choice : Option (Nat × Nat)) : Prop :=
  ∀ pair ∈ choice, pair.1 < pair.2 ∧ pair.2 < n

section Walk

variable {s : Settings α} {n longest ticks rounds : Nat} {w : Walk L α μ ρ}

theorem Steady.mono {ticks' rounds' : Nat} (h : Steady s n longest ticks rounds w)
    (hTicks : ticks ≤ ticks') (hRounds : rounds ≤ rounds') :
    Steady s n longest ticks' rounds' w :=
  { h with
    clock := h.clock.trans hTicks
    sinceBest := h.sinceBest.trans hRounds
    strength := fun hLaunch => (h.strength hLaunch).trans (Nat.add_le_add_left hRounds _) }

theorem Steady.markOptimum (h : Steady s n longest ticks rounds w) :
    Steady s n longest ticks rounds w.markOptimum := by
  obtain ⟨climbed, lastOptimum, hMarked⟩ := w.exists_markOptimum
  rw [hMarked]
  exact { h with }

theorem skip_succeeds (hTime : ticks + 1 < Word.size) (h : Steady s n longest ticks rounds w) :
    Succeeds w.skip (Steady s n longest (ticks + 1) rounds) := by
  have hClock := h.clock
  have hSwaps := h.swaps
  refine Succeeds.bind (checked_succeeds (by omega)) ?_
  rintro _ rfl
  exact Succeeds.pure { h with clock := Nat.succ_le_succ hClock, swaps := Nat.le_succ_of_le hSwaps }

variable [Scalar α]

-- ---------------------------------------------------------------------------
-- Choosing
-- ---------------------------------------------------------------------------

section Choosing

variable [RandomSource ρ] (hTenure : Drawable s.minTenure s.maxTenure)

theorem Steady.metropolisPick (h : Steady s n longest ticks rounds w)
    (candidates : Array (Move α)) (temperature : α) :
    Steady s n longest ticks rounds (w.metropolisPick candidates temperature).2 := by
  obtain ⟨random, hPicked⟩ := w.exists_metropolisPick candidates temperature
  rw [hPicked]
  exact { h with }

include hTenure

theorem drawTenure_succeeds (h : Steady s n longest ticks rounds w) :
    Succeeds w.drawTenure fun drawn => Steady s n longest ticks rounds drawn.2 := by
  have hRange : Drawable w.settings.minTenure w.settings.maxTenure := h.settings_eq ▸ hTenure
  refine Succeeds.bind (between_succeeds hRange w.context.random) fun drawn _ => ?_
  exact Succeeds.pure { h with }

theorem directedPick_succeeds (hTwo : 2 ≤ n) (directed : α)
    (h : Steady s n longest ticks rounds w) :
    Succeeds (w.directedPick directed) fun picked =>
      Steady s n longest ticks rounds picked.2 ∧ IsPair n picked.1 := by
  have hPicked : Succeeds (w.directedPick directed) fun picked =>
      Steady s n longest ticks rounds picked.2 := by
    refine Succeeds.bind (drawTenure_succeeds hTenure h) fun drawn hDrawn => ?_
    dsimp only
    split
    · exact Succeeds.pure { hDrawn with }
    · exact Succeeds.pure { hDrawn with }
  refine hPicked.and fun picked hOk pair hPair => ?_
  have hLt := Walk.lt_of_directedPick (h.size.symm ▸ hTwo) (h.table.trans h.size.symm) hOk hPair
  rwa [h.size] at hLt

theorem annealedPick_succeeds (temperature : α) (h : Steady s n longest ticks rounds w) :
    Succeeds (w.annealedPick temperature) fun picked =>
      Steady s n longest ticks rounds picked.2 ∧ IsPair n picked.1 := by
  have hPicked : Succeeds (w.annealedPick temperature) fun picked =>
      Steady s n longest ticks rounds picked.2 := by
    refine Succeeds.bind (drawTenure_succeeds hTenure h) fun drawn hDrawn => ?_
    dsimp only
    split
    · exact Succeeds.pure hDrawn
    · exact Succeeds.pure (hDrawn.metropolisPick _ _)
  refine hPicked.and fun picked hOk pair hPair => ?_
  have hLt := Walk.lt_of_annealedPick (h.table.trans h.size.symm) hOk hPair
  rwa [h.size] at hLt

end Choosing

section Settling

variable [RandomSource ρ] {limit steps : Nat}

/-- Burst lengths can be counted. -/
theorem Settings.Sustains.counted_lt (hSustains : s.Sustains n limit longest steps)
    (hLaunch : s.perturbation ≠ .disabled) (hLimit : 1 ≤ limit) :
    longest + limit < Word.size := by
  calc longest + limit ≤ steps := hSustains.counted hLaunch
    _ ≤ limit * steps := Nat.le_mul_of_pos_left steps hLimit
    _ < Word.size := hSustains.total

/-- A stagnation jump is no longer than bursts may be. -/
theorem drawJump_succeeds (hSustains : s.Sustains n limit longest steps)
    (hNormal : s.perturbation = .normal) (h : Steady s n longest ticks rounds w) :
    Succeeds w.drawJump fun drawn =>
      Steady s n longest ticks rounds drawn.2 ∧ drawn.1 ≤ longest := by
  have hRange : Drawable w.settings.minStagnation w.settings.maxStagnation :=
    h.settings_eq ▸ hSustains.stagnation hNormal
  refine Succeeds.bind (between_succeeds hRange w.context.random) ?_
  rintro ⟨fraction, random⟩ ⟨k, hk, rfl⟩
  refine Succeeds.pure ⟨{ h with }, ?_⟩
  have hDrawn := hSustains.drawn hNormal k hk
  rw [← h.settings_eq, ← h.size] at hDrawn
  exact hDrawn

theorem settleStrength_succeeds {jumps : Bool} (hSustains : s.Sustains n limit longest steps)
    (hLaunch : s.perturbation ≠ .disabled) (hJumps : jumps = true → s.perturbation = .normal)
    (hRound : rounds + 1 ≤ limit) (h : Steady s n longest ticks rounds w) :
    Succeeds (w.settleStrength jumps) fun settled =>
      Steady s n longest ticks (rounds + 1) settled.2 := by
  have hCounted := hSustains.counted_lt hLaunch (Nat.le_trans (Nat.le_add_left ..) hRound)
  have hStrength := h.strength hLaunch
  have hSinceBest := h.sinceBest
  have hBase : w.baseStrength ≤ longest := by
    unfold Walk.baseStrength
    rw [h.settings_eq, h.size]
    exact hSustains.base hLaunch
  unfold Walk.settleStrength
  dsimp only
  -- a jump, an escape or one more swap
  split
  · next hJump =>
    have hNormal := hJumps (Bool.and_eq_true_iff.mp hJump).1
    have hRestarted : Steady s n longest ticks rounds { w with sinceBest := 0 } :=
      { h with sinceBest := Nat.zero_le _ }
    refine Succeeds.bind (drawJump_succeeds hSustains hNormal hRestarted) ?_
    rintro ⟨drawn, v⟩ ⟨hv, hDrawn⟩
    -- the old length has grown by one in every round, the drawn one is bounded outright
    have hLength : max v.strength drawn ≤ longest + (rounds + 1) := by
      have hBefore : v.strength ≤ longest + rounds := hv.strength hLaunch
      omega
    exact Succeeds.pure { hv.mono le_rfl (Nat.le_succ _) with strength := fun _ => hLength }
  · split
    · refine Succeeds.bind (checked_succeeds (by omega)) ?_
      rintro _ rfl
      exact Succeeds.pure { h with
        sinceBest := Nat.succ_le_succ hSinceBest
        strength := fun _ => hBase.trans (Nat.le_add_right ..) }
    · refine Succeeds.bind (checked_succeeds (by omega)) ?_
      rintro _ rfl
      exact Succeeds.pure { h with
        sinceBest := Nat.le_succ_of_le hSinceBest
        strength := fun _ => Nat.succ_le_succ hStrength }

end Settling

-- ---------------------------------------------------------------------------
-- Moving
-- ---------------------------------------------------------------------------

variable [Monitor μ α]

theorem Steady.stopRequested (h : Steady s n longest ticks rounds w) :
    Steady s n longest ticks rounds w.stopRequested.2 := by
  obtain ⟨monitor, hAsked⟩ := w.exists_stopRequested
  rw [hAsked]
  exact { h with }

theorem Steady.recordIfBetter (h : Steady s n longest ticks rounds w) :
    Steady s n longest ticks rounds w.recordIfBetter := by
  unfold Walk.recordIfBetter
  split
  · exact { h with sinceBest := Nat.zero_le _ }
  · exact h

variable (hMonitor : ∀ (m : μ) (b : Budget), Succeeds (Monitor.onCharge m b) fun _ => True)
  (hCells : n * n < Word.size)

include hMonitor hCells

omit [Scalar α] in
theorem refresh_succeeds {hint : Option (Nat × Nat)} (hHint : IsPair n hint)
    (h : Steady s n longest ticks rounds w) :
    Succeeds (w.refresh hint) (Steady s n longest ticks rounds) := by
  refine Succeeds.bind (h.landscape.scan w.value h.size h.table hHint) ?_
  rintro ⟨landscape, gains⟩ ⟨hLandscape, hTable⟩
  refine Succeeds.bind (scanCost_succeeds (h.size.symm ▸ hCells)) fun cost _ => ?_
  refine Succeeds.bind (hMonitor _ _) fun monitor _ => ?_
  exact Succeeds.pure { h with table := hTable, landscape := hLandscape }

theorem exchange_succeeds {i j : Nat} (hTime : ticks + 1 < Word.size) (hij : i < j) (hj : j < n)
    (h : Steady s n longest ticks rounds w) :
    Succeeds (w.exchange i j) (Steady s n longest (ticks + 1) rounds) := by
  have hClock := h.clock
  have hSwaps := h.swaps
  refine Succeeds.bind (checked_succeeds (by omega)) ?_
  rintro _ rfl
  refine Succeeds.bind (checked_succeeds (by omega)) ?_
  rintro _ rfl
  -- both counters stay below the number of ticks, so neither overflows
  refine refresh_succeeds hMonitor hCells ?_ ?_
  · rintro _ ⟨⟩
    exact ⟨hij, hj⟩
  · exact { h with
      size := (Permutation.size_swap ..).trans h.size
      clock := Nat.succ_le_succ hClock
      swaps := Nat.succ_le_succ hSwaps }

theorem follow_succeeds {choice : Option (Nat × Nat)} (hTime : ticks + 1 < Word.size)
    (hChoice : IsPair n choice) (h : Steady s n longest ticks rounds w) :
    Succeeds (w.follow choice) (Steady s n longest (ticks + 1) rounds) := by
  cases choice with
  | none => exact skip_succeeds hTime h
  | some pair =>
    obtain ⟨hij, hj⟩ := hChoice pair rfl
    exact exchange_succeeds hMonitor hCells hTime hij hj h

theorem climb_succeeds {m : Move α} (hTime : ticks + 1 < Word.size) (hMove : m ∈ w.gains.moves)
    (h : Steady s n longest ticks rounds w) :
    Succeeds (w.climb m) (Steady s n longest (ticks + 1) rounds) := by
  obtain ⟨hij, hj⟩ := GainTable.lt_of_mem_moves hMove
  rw [h.table] at hj
  refine Succeeds.bind (exchange_succeeds hMonitor hCells hTime hij hj h) fun next hNext => ?_
  exact Succeeds.pure { hNext.recordIfBetter with }

-- ---------------------------------------------------------------------------
-- Bursts
-- ---------------------------------------------------------------------------

/-- A burst of either kind succeeds if its picks do, and takes at most as many steps as it may. -/
theorem burst_succeeds
    {pick : α → Walk L α μ ρ → Except Breach (Option (Nat × Nat) × Walk L α μ ρ)}
    (cool : α → α)
    (hPick : ∀ temperature {ticks} {v : Walk L α μ ρ}, Steady s n longest ticks rounds v →
      Succeeds (pick temperature v) fun picked =>
        Steady s n longest ticks rounds picked.2 ∧ IsPair n picked.1)
    (count : Nat) (temperature : α) (hTime : ticks + count < Word.size)
    (h : Steady s n longest ticks rounds w) :
    Succeeds (Walk.burstM pick cool count temperature w)
      (Steady s n longest (ticks + count) rounds) := by
  induction count generalizing ticks temperature w with
  | zero => exact Succeeds.pure h
  | succ count ih =>
    unfold Walk.burstM
    have hAsked := h.stopRequested
    generalize w.stopRequested = asked at hAsked ⊢
    obtain ⟨stop, v⟩ := asked
    cases stop with
    | true => exact Succeeds.pure (hAsked.mono (Nat.le_add_right ..) le_rfl)
    | false =>
      refine Succeeds.bind (hPick temperature hAsked) ?_
      rintro ⟨choice, u⟩ ⟨hChosen, hPair⟩
      refine Succeeds.bind (follow_succeeds hMonitor hCells (by omega) hPair hChosen)
        fun next hNext => ?_
      -- the step that has been taken is one of those that were left
      have hLeft : ticks + 1 + count = ticks + (count + 1) := by omega
      split
      · exact Succeeds.pure (hNext.mono (by omega) le_rfl)
      · rw [← hLeft]
        exact ih (cool temperature) (by omega) hNext

-- ---------------------------------------------------------------------------
-- Iterations
-- ---------------------------------------------------------------------------

variable [RandomSource ρ] {limit steps : Nat} (hSustains : s.Sustains n limit longest steps)

include hSustains

theorem runDirected_succeeds (hTwo : 2 ≤ n) (hLaunch : s.perturbation ≠ .disabled)
    {strength : Nat} (ratio : α) (hStrength : strength ≤ longest + limit)
    (hTime : ticks + steps < Word.size) (h : Steady s n longest ticks rounds w) :
    Succeeds (w.runDirected strength ratio) (Steady s n longest (ticks + steps) rounds) := by
  have hCount : strength ≤ steps := hStrength.trans (hSustains.counted hLaunch)
  obtain ⟨next, hOk, hNext⟩ := burst_succeeds hMonitor hCells id
    (fun _ _ v hv => directedPick_succeeds (hSustains.tenure hLaunch) hTwo
      (Walk.directedShare w.settings.minDirected ratio) hv)
    strength 0 (by omega) h
  exact ⟨next, hOk, hNext.mono (by omega) le_rfl⟩

theorem runAnnealed_succeeds (hKind : s.perturbation = .annealed) {strength : Nat}
    (hStrength : strength ≤ longest + limit) (hRounds : rounds ≤ limit)
    (hTime : ticks + steps < Word.size) (h : Steady s n longest ticks rounds w) :
    Succeeds (w.runAnnealed strength w.stagnation)
      (Steady s n longest (ticks + steps) rounds) := by
  have hLaunch : s.perturbation ≠ .disabled := by
    rw [hKind]
    decide
  -- stagnation has gone on for no more rounds than there are, so the ramp is bounded
  have hCount : Scalar.toWord ((strength : α) * Scalar.larger w.stagnation 1) ≤ steps := by
    unfold Walk.stagnation
    rw [h.settings_eq]
    exact hSustains.ramp hKind strength hStrength w.sinceBest (h.sinceBest.trans hRounds)
  obtain ⟨next, hOk, hNext⟩ := burst_succeeds hMonitor hCells _
    (fun temperature _ v hv => annealedPick_succeeds (hSustains.tenure hLaunch) temperature hv)
    _ _ (Nat.lt_of_le_of_lt (Nat.add_le_add_left hCount ticks) hTime) h
  exact ⟨next, hOk, hNext.mono (Nat.add_le_add_left hCount ticks) le_rfl⟩

theorem launch_succeeds (hTwo : 2 ≤ n) {annealed : Bool}
    (hKind : s.perturbation = if annealed then .annealed else .normal)
    (hTime : ticks + steps < Word.size) (hRound : rounds + 1 ≤ limit)
    (h : Steady s n longest ticks rounds w) :
    Succeeds (w.launch annealed) (Steady s n longest (ticks + steps) (rounds + 1)) := by
  have hLaunch : s.perturbation ≠ .disabled := by
    rw [hKind]
    cases annealed <;> decide
  have hJumps : (!annealed) = true → s.perturbation = .normal := by
    rw [hKind]
    cases annealed <;> decide
  refine Succeeds.bind (settleStrength_succeeds hSustains hLaunch hJumps hRound h) ?_
  rintro ⟨jumped, settled⟩ hSettled
  have hMarked : Steady s n longest ticks (rounds + 1) settled.markOptimum := hSettled.markOptimum
  -- the length settled in this round is bounded by what the rounds before have added
  have hStrength : settled.markOptimum.strength ≤ longest + limit :=
    (hMarked.strength hLaunch).trans (Nat.add_le_add_left hRound _)
  have hLaunched := fun bursts =>
    ({ hMarked with } : Steady s n longest ticks (rounds + 1)
      { settled.markOptimum with bursts := bursts })
  have hRecord : ∀ next : Walk L α μ ρ, Steady s n longest (ticks + steps) (rounds + 1) next →
      Succeeds (pure next.recordIfBetter) (Steady s n longest (ticks + steps) (rounds + 1)) :=
    fun next hNext => Succeeds.pure hNext.recordIfBetter
  cases annealed with
  | true =>
    exact Succeeds.bind (runAnnealed_succeeds hMonitor hCells hSustains hKind hStrength hRound
      hTime (hLaunched _)) hRecord
  | false =>
    exact Succeeds.bind (runDirected_succeeds hMonitor hCells hSustains hTwo hLaunch _ hStrength
      hTime (hLaunched _)) hRecord

/-- **One iteration.** It takes no more steps than a burst may. -/
theorem iterate_succeeds (hTwo : 2 ≤ n) (hTime : ticks + steps < Word.size)
    (hRound : rounds + 1 ≤ limit) (h : Steady s n longest ticks rounds w) :
    Succeeds w.iterate fun progress =>
      Steady s n longest (ticks + steps) (rounds + 1) progress.walk := by
  have hCounted : Steady s n longest ticks rounds { w with iterations := w.iterations + 1 } :=
    { h with }
  have hStep := hSustains.positive
  unfold Walk.iterate Walk.iterateM
  -- the look in front of it costs nothing
  refine Succeeds.bind (Q := fun _ => True) (Succeeds.pure trivial) fun _ _ => ?_
  split
  · next m hMove =>
    -- a climb is one step, and a burst may take more
    obtain ⟨hBest, -⟩ := Option.filter_eq_some_iff.mp hMove
    refine Succeeds.bind (climb_succeeds hMonitor hCells (by omega)
      (GainTable.mem_moves_of_bestMove hBest) hCounted) fun next hNext => ?_
    exact Succeeds.pure (hNext.mono (by omega) (Nat.le_succ _))
  · split
    · exact Succeeds.pure (hCounted.mono (Nat.le_add_right ..) (Nat.le_succ _))
    · next hNormal =>
      have hKind : s.perturbation = .normal := h.settings_eq ▸ hNormal
      exact Succeeds.bind (launch_succeeds hMonitor hCells hSustains hTwo hKind hTime hRound
        hCounted) fun next hNext => Succeeds.pure hNext
    · next hAnnealed =>
      have hKind : s.perturbation = .annealed := h.settings_eq ▸ hAnnealed
      exact Succeeds.bind (launch_succeeds hMonitor hCells hSustains hTwo hKind hTime hRound
        hCounted) fun next hNext => Succeeds.pure hNext

theorem run_succeeds (hTwo : 2 ≤ n) {count : Nat} (hRounds : rounds + count ≤ limit)
    (h : Steady s n longest (rounds * steps) rounds w) :
    Succeeds (Walk.run count w) fun _ => True := by
  -- the ticks are those of the rounds before, at the most steps a round may take
  induction count generalizing rounds w with
  | zero => exact Succeeds.pure trivial
  | succ count ih =>
    unfold Walk.run Walk.runM
    have hAsked := h.stopRequested
    generalize w.stopRequested = asked at hAsked ⊢
    obtain ⟨stop, v⟩ := asked
    cases stop with
    | true => exact Succeeds.pure trivial
    | false =>
      have hRound : rounds + 1 ≤ limit := by omega
      -- one more round still fits, since all rounds together do
      have hTime : rounds * steps + steps < Word.size := by
        rw [← Nat.succ_mul]
        exact Nat.lt_of_le_of_lt (Nat.mul_le_mul_right steps hRound) hSustains.total
      refine Succeeds.bind (iterate_succeeds hMonitor hCells hSustains hTwo hTime hRound hAsked)
        fun progress hProgress => ?_
      cases progress with
      | settled next => exact Succeeds.pure trivial
      | continued next =>
        rw [← Nat.succ_mul] at hProgress
        exact ih (by omega) hProgress

end Walk

end SwapSearch.Tabu
