import SwapSearch.Proofs.Tabu.Contract
import SwapSearch.Tabu.Search

/-!
# SwapSearch — what the functions of a walk change

A walk carries much, and each of its functions changes little of it. Here every function
that may fail or draw is inverted once: if it returns, this is the walk it returns. What
a projection of the walk makes of the function then follows by computation, and no later
proof has to open the function again.

Picks only draw. Of a walk they change the random source.

## Results

* `exists_of_skip`, `exists_of_refresh`, `exists_of_exchange` — moving on.
* `exists_stopRequested`, `exists_recordIfBetter`             — asking and recording.
* `exists_of_directedPick`, `exists_of_annealedPick`          — picking.
* `settles_of_settleStrength`, `exists_markOptimum`           — preparing a burst.
* `exists_of_launch`                                          — launching it.
* `iterated_of_iterate`                                       — iterating.
* `Search.exists_of_begin`, `Search.exists_of_improve`        — searching.
-/

namespace SwapSearch

/-- What is checked is not changed. -/
theorem Word.eq_of_checked {k word : Nat} (h : checked k = .ok word) : word = k := by
  unfold checked at h
  split at h
  · exact (Except.ok.inj h).symm
  · exact nomatch h

namespace Tabu

namespace Walk

variable {L α μ ρ : Type} {w w' : Walk L α μ ρ}

-- ---------------------------------------------------------------------------
-- Moving on
-- ---------------------------------------------------------------------------

theorem exists_of_skip (h : w.skip = .ok w') : w' = { w with clock := w.clock + 1 } := by
  obtain ⟨clock, hClock, h⟩ := exists_of_bind_ok h
  obtain rfl := Word.eq_of_checked hClock
  exact (Except.ok.inj h).symm

section Moving

variable [Monitor μ α] [Landscape L α]

theorem exists_of_refresh {hint : Option (Nat × Nat)} (h : w.refresh hint = .ok w') :
    ∃ landscape gains cost monitor,
      Landscape.scan w.context.landscape w.current.values w.value hint w.gains =
        .ok (landscape, gains) ∧
      Budget.scanCost w.size = .ok cost ∧
      Monitor.onCharge w.context.monitor (w.context.budget.charge cost) = .ok monitor ∧
      w' = { w with
        gains
        context := { w.context with
          landscape
          budget := w.context.budget.charge cost
          monitor } } := by
  obtain ⟨⟨landscape, gains⟩, hScan, h⟩ := exists_of_bind_ok h
  obtain ⟨cost, hCost, h⟩ := exists_of_bind_ok h
  obtain ⟨monitor, hCharge, h⟩ := exists_of_bind_ok h
  exact ⟨landscape, gains, cost, monitor, hScan, hCost, hCharge, (Except.ok.inj h).symm⟩

/-- The walk after a move, which it has yet to scan. -/
def moved [Scalar α] (w : Walk L α μ ρ) (i j : Nat) : Walk L α μ ρ :=
  { w with
    value := w.value + w.gains.gain i j
    current := w.current.swap i j
    memory := w.memory.record i j w.clock
    clock := w.clock + 1
    swaps := w.swaps + 1
    trail := (i, j) :: w.trail }

/-- An exchange is a move and a scan of where it leads. -/
theorem refresh_of_exchange [Scalar α] {i j : Nat} (h : w.exchange i j = .ok w') :
    (w.moved i j).refresh (some (i, j)) = .ok w' := by
  obtain ⟨clock, hClock, h⟩ := exists_of_bind_ok h
  obtain ⟨swaps, hSwaps, h⟩ := exists_of_bind_ok h
  obtain rfl := Word.eq_of_checked hClock
  obtain rfl := Word.eq_of_checked hSwaps
  exact h

theorem exists_of_exchange [Scalar α] {i j : Nat} (h : w.exchange i j = .ok w') :
    ∃ landscape gains cost monitor,
      Landscape.scan w.context.landscape (w.current.swap i j).values
        (w.value + w.gains.gain i j) (some (i, j)) w.gains = .ok (landscape, gains) ∧
      Budget.scanCost (w.current.swap i j).size = .ok cost ∧
      Monitor.onCharge w.context.monitor (w.context.budget.charge cost) = .ok monitor ∧
      w' = { w.moved i j with
        gains
        context := { w.context with
          landscape
          budget := w.context.budget.charge cost
          monitor } } :=
  exists_of_refresh (refresh_of_exchange h)

end Moving

-- ---------------------------------------------------------------------------
-- Asking and recording
-- ---------------------------------------------------------------------------

section Monitored

variable [Scalar α] [Monitor μ α]

/-- What decides whether to stop. -/
theorem stopRequested_fst (w : Walk L α μ ρ) :
    w.stopRequested.1 = (w.context.budget.isExhausted || (Monitor.poll w.context.monitor).1 ||
      w.target.any (Scalar.reaches w.value)) := by
  unfold stopRequested
  split
  · next hExhausted => simp [hExhausted]
  · next hLeft => simp [hLeft]

theorem exists_stopRequested (w : Walk L α μ ρ) :
    ∃ monitor, w.stopRequested.2 = { w with context := { w.context with monitor } } := by
  unfold stopRequested
  split
  · exact ⟨w.context.monitor, rfl⟩
  · exact ⟨(Monitor.poll w.context.monitor).2, rfl⟩

theorem exists_recordIfBetter (w : Walk L α μ ρ) :
    ∃ best bestValue sinceBest monitor, w.recordIfBetter =
      { w with best, bestValue, sinceBest, context := { w.context with monitor } } := by
  unfold recordIfBetter
  split
  · exact ⟨w.current, w.value, 0, Monitor.onBest w.context.monitor w.value, rfl⟩
  · exact ⟨w.best, w.bestValue, w.sinceBest, w.context.monitor, rfl⟩

end Monitored

-- ---------------------------------------------------------------------------
-- Picking
-- ---------------------------------------------------------------------------

section Picking

variable [Scalar α] [RandomSource ρ]

theorem exists_of_drawTenure {drawn : α × Walk L α μ ρ} (h : w.drawTenure = .ok drawn) :
    ∃ random, drawn.2 = { w with context := { w.context with random } } := by
  obtain ⟨⟨fraction, random⟩, -, h⟩ := exists_of_bind_ok h
  obtain rfl := Except.ok.inj h
  exact ⟨random, rfl⟩

theorem exists_of_directedPick {directed : α} {picked : Option (Nat × Nat) × Walk L α μ ρ}
    (h : w.directedPick directed = .ok picked) :
    ∃ random, picked.2 = { w with context := { w.context with random } } := by
  obtain ⟨⟨tenure, v⟩, hDrawn, h⟩ := exists_of_bind_ok h
  obtain ⟨random, rfl⟩ := exists_of_drawTenure hDrawn
  dsimp only at h
  split at h
  · obtain rfl := Except.ok.inj h
    exact ⟨_, rfl⟩
  · obtain rfl := Except.ok.inj h
    exact ⟨_, rfl⟩

theorem exists_metropolisPick (w : Walk L α μ ρ) (candidates : Array (Move α))
    (temperature : α) :
    ∃ random, (w.metropolisPick candidates temperature).2 =
      { w with context := { w.context with random } } := by
  unfold metropolisPick
  split
  · exact ⟨w.context.random, rfl⟩
  · dsimp only
    split
    · exact ⟨_, rfl⟩
    · exact ⟨_, rfl⟩

theorem exists_of_annealedPick {temperature : α} {picked : Option (Nat × Nat) × Walk L α μ ρ}
    (h : w.annealedPick temperature = .ok picked) :
    ∃ random, picked.2 = { w with context := { w.context with random } } := by
  obtain ⟨⟨tenure, v⟩, hDrawn, h⟩ := exists_of_bind_ok h
  obtain ⟨random, rfl⟩ := exists_of_drawTenure hDrawn
  dsimp only at h
  split at h
  · obtain rfl := Except.ok.inj h
    exact ⟨random, rfl⟩
  · obtain rfl := Except.ok.inj h
    exact exists_metropolisPick ..

end Picking

-- ---------------------------------------------------------------------------
-- Preparing a burst
-- ---------------------------------------------------------------------------

theorem exists_markOptimum (w : Walk L α μ ρ) :
    ∃ climbed lastOptimum, w.markOptimum = { w with climbed, lastOptimum } := by
  unfold markOptimum
  split
  · exact ⟨false, w.current, rfl⟩
  · exact ⟨w.climbed, w.lastOptimum, rfl⟩

section Settling

variable [Scalar α] [RandomSource ρ]

/-- What settles the length of a burst: a stagnation jump draws it, a new optimum that the walk has
climbed to resets it, and otherwise it grows by one. -/
inductive Settles (w : Walk L α μ ρ) (jumps : Bool) : Bool × Walk L α μ ρ → Prop
  | jumped {fraction : α} {random : ρ} (hJumps : jumps = true)
      (hStagnant : w.sinceBest = w.settings.stagnationAfter)
      (hDrawn : Random.between w.settings.minStagnation w.settings.maxStagnation
        w.context.random = .ok (fraction, random)) :
      Settles w jumps (true, { w with
        context := { w.context with random }
        sinceBest := 0
        strength := max w.strength (max (Scalar.toWord (fraction * (w.size : α))) 2) })
  | escaped (hCalm : ¬ (jumps = true ∧ w.sinceBest = w.settings.stagnationAfter))
      (hEscaped : w.climbed = true ∧ w.lastOptimum ≠ w.current) :
      Settles w jumps (false, { w with sinceBest := w.sinceBest + 1, strength := w.baseStrength })
  | lingered (hCalm : ¬ (jumps = true ∧ w.sinceBest = w.settings.stagnationAfter))
      (hLingered : ¬ (w.climbed = true ∧ w.lastOptimum ≠ w.current)) :
      Settles w jumps (false, { w with strength := w.strength + 1 })

theorem settles_of_settleStrength {jumps : Bool} {settled : Bool × Walk L α μ ρ}
    (h : w.settleStrength jumps = .ok settled) : w.Settles jumps settled := by
  unfold settleStrength at h
  dsimp only at h
  -- the test for a jump comes first, whether the walk has escaped is asked only after it
  split at h
  · next hJump =>
    obtain ⟨hJumps, hStagnant⟩ : jumps = true ∧ w.sinceBest = w.settings.stagnationAfter := by
      simpa using hJump
    obtain ⟨⟨drawn, v⟩, hDrawn, h⟩ := exists_of_bind_ok h
    obtain ⟨⟨fraction, random⟩, hFraction, hDrawn⟩ := exists_of_bind_ok hDrawn
    obtain ⟨rfl, rfl⟩ := Prod.mk.inj (Except.ok.inj hDrawn)
    obtain rfl := Except.ok.inj h
    exact .jumped hJumps hStagnant hFraction
  · next hJump =>
    have hCalm : ¬ (jumps = true ∧ w.sinceBest = w.settings.stagnationAfter) := by
      simpa using hJump
    split at h
    · next hEscaped =>
      obtain ⟨sinceBest, hSince, h⟩ := exists_of_bind_ok h
      obtain rfl := Word.eq_of_checked hSince
      obtain rfl := Except.ok.inj h
      exact .escaped hCalm (by simpa using hEscaped)
    · next hLingered =>
      obtain ⟨strength, hStrength, h⟩ := exists_of_bind_ok h
      obtain rfl := Word.eq_of_checked hStrength
      obtain rfl := Except.ok.inj h
      exact .lingered hCalm (by simpa using hLingered)

/-- Settling the length of a burst draws at most once, and changes nothing but two counters. -/
theorem Settles.exists_eq {jumps : Bool} {settled : Bool × Walk L α μ ρ}
    (h : w.Settles jumps settled) :
    ∃ random sinceBest strength, 1 ≤ strength ∧
      settled.2 = { w with context := { w.context with random }, sinceBest, strength } := by
  cases h with
  | jumped _ _ _ =>
    refine ⟨_, 0, _, ?_, rfl⟩
    exact Nat.le_trans (Nat.le_of_succ_le (Nat.le_max_right _ 2)) (Nat.le_max_right ..)
  | escaped _ _ =>
    exact ⟨w.context.random, w.sinceBest + 1, _, Nat.le_of_succ_le (Nat.le_max_right _ 2), rfl⟩
  | lingered _ _ =>
    exact ⟨w.context.random, w.sinceBest, w.strength + 1, Nat.le_add_left .., rfl⟩

theorem exists_of_settleStrength {jumps : Bool} {settled : Bool × Walk L α μ ρ}
    (h : w.settleStrength jumps = .ok settled) :
    ∃ random sinceBest strength, 1 ≤ strength ∧
      settled.2 = { w with context := { w.context with random }, sinceBest, strength } :=
  (settles_of_settleStrength h).exists_eq

end Settling

/-- The walk about to launch a burst of settled length, with the launch on its list. -/
def launching [Scalar α] (w : Walk L α μ ρ) (jumped : Bool) : Walk L α μ ρ :=
  let w := w.markOptimum
  { w with bursts := ⟨w.current, w.strength, jumped, w.stagnation⟩ :: w.bursts }

section Launching

variable [Scalar α] [Monitor μ α] [Landscape L α] [RandomSource ρ]

/-- A launch settles a length, makes the burst and records where it has led. -/
theorem exists_of_launch {annealed : Bool} (h : w.launch annealed = .ok w') :
    ∃ jumped settled next, w.Settles (!annealed) (jumped, settled) ∧
      (if annealed then (settled.launching jumped).runAnnealed settled.strength settled.stagnation
        else (settled.launching jumped).runDirected settled.strength settled.stagnation) =
          .ok next ∧
      w' = next.recordIfBetter := by
  obtain ⟨⟨jumped, settled⟩, hSettle, h⟩ := exists_of_bind_ok h
  obtain ⟨climbed, lastOptimum, hMarked⟩ := settled.exists_markOptimum
  dsimp only at h
  -- the optimum is marked in one of two ways, and the burst starts from either
  rw [hMarked] at h
  refine ⟨jumped, settled, ?_⟩
  rw [launching, hMarked]
  cases annealed with
  | true =>
    obtain ⟨next, hBurst, h⟩ := exists_of_bind_ok h
    exact ⟨next, settles_of_settleStrength hSettle, hBurst, (Except.ok.inj h).symm⟩
  | false =>
    obtain ⟨next, hBurst, h⟩ := exists_of_bind_ok h
    exact ⟨next, settles_of_settleStrength hSettle, hBurst, (Except.ok.inj h).symm⟩

end Launching

-- ---------------------------------------------------------------------------
-- Iterating
-- ---------------------------------------------------------------------------

section Iterating

variable [Scalar α] [Monitor μ α] [Landscape L α] [RandomSource ρ]

/-- The walk with one more iteration on its count. -/
def counted (w : Walk L α μ ρ) : Walk L α μ ρ := { w with iterations := w.iterations + 1 }

/-- What an iteration does: it climbs, or it stands at a local optimum and settles there or launches
a burst. -/
inductive Iterated (w : Walk L α μ ρ) : Progress L α μ ρ → Prop
  | climbed {m : Move α} {next : Walk L α μ ρ} (hMove : w.gains.bestMove = some m)
      (hGain : 0 < m.gain) (hClimb : w.counted.climb m = .ok next) : Iterated w (.continued next)
  | settled (hOptimum : w.gains.bestMove.filter (0 < ·.gain) = none)
      (hKind : w.settings.perturbation = .disabled) : Iterated w (.settled w.counted)
  | launched (annealed : Bool) {next : Walk L α μ ρ}
      (hOptimum : w.gains.bestMove.filter (0 < ·.gain) = none)
      (hKind : w.settings.perturbation = if annealed then .annealed else .normal)
      (hLaunch : w.counted.launch annealed = .ok next) : Iterated w (.continued next)

theorem iterated_of_iterate {progress : Progress L α μ ρ} (h : w.iterate = .ok progress) :
    w.Iterated progress := by
  unfold iterate iterateM at h
  -- nobody looks
  obtain ⟨-, -, h⟩ := exists_of_bind_ok h
  split at h
  · next m hMove =>
    obtain ⟨hBest, hGain⟩ := Option.filter_eq_some_iff.mp hMove
    obtain ⟨next, hClimb, h⟩ := exists_of_bind_ok h
    obtain rfl := Except.ok.inj h
    exact .climbed hBest (of_decide_eq_true hGain) hClimb
  · next hOptimum =>
    split at h
    · next hKind =>
      obtain rfl := Except.ok.inj h
      exact .settled hOptimum hKind
    · next hKind =>
      obtain ⟨next, hLaunch, h⟩ := exists_of_bind_ok h
      obtain rfl := Except.ok.inj h
      exact .launched false hOptimum hKind hLaunch
    · next hKind =>
      obtain ⟨next, hLaunch, h⟩ := exists_of_bind_ok h
      obtain rfl := Except.ok.inj h
      exact .launched true hOptimum hKind hLaunch

end Iterating

end Walk

-- ---------------------------------------------------------------------------
-- Beginning
-- ---------------------------------------------------------------------------

namespace Search

variable {L α μ ρ : Type} [Scalar α] [Landscape L α] [Monitor μ α]

/-- The walk that a search begins with, given its empty tables. -/
def opened (s : Search α) (start : Permutation) (value : α) (context : Context L μ ρ)
    (gains : GainTable α) (memory : Memory) : Walk L α μ ρ where
  settings := s.settings
  target := s.target
  context := { context with monitor := Monitor.onBest context.monitor value }
  current := start
  value := value
  best := start
  bestValue := value
  gains := gains
  memory := memory
  clock := 0
  swaps := 0
  iterations := 0
  sinceBest := 0
  strength := Settings.jumpLength s.settings.jump start.size
  climbed := true
  lastOptimum := start
  trail := []
  bursts := []

/-- A search begins on a start of the right size. -/
theorem exists_of_begin {s : Search α} {start : Permutation} {value : α}
    {context : Context L μ ρ} {w : Walk L α μ ρ} (h : s.begin start value context = .ok w) :
    start.size = Landscape.size context.landscape ∧
      ∃ gains memory, GainTable.allocate start.size = .ok gains ∧
        Memory.allocate start.size = .ok memory ∧
        w = s.opened start value context gains memory := by
  unfold begin at h
  split at h
  · exact nomatch h
  · next hSize =>
    obtain ⟨gains, hGains, h⟩ := exists_of_bind_ok h
    obtain ⟨memory, hMemory, h⟩ := exists_of_bind_ok h
    exact ⟨Decidable.not_not.mp hSize, gains, memory, hGains, hMemory, (Except.ok.inj h).symm⟩

/-- A search begins, walks, and returns what it has on record. -/
theorem exists_of_improve [RandomSource ρ] {s : Search α} {start : Permutation} {value : α}
    {limit : Nat} {context rest : Context L μ ρ} {outcome : Outcome α}
    (h : s.improve start value limit context = .ok (outcome, rest)) :
    ∃ opened final, s.begin start value context = .ok opened ∧ walk limit opened = .ok final ∧
      outcome = final.outcome ∧ rest = final.context := by
  obtain ⟨opened, hBegin, h⟩ := exists_of_bind_ok h
  obtain ⟨final, hWalk, h⟩ := exists_of_bind_ok h
  obtain ⟨rfl, rfl⟩ := Prod.mk.inj (Except.ok.inj h)
  exact ⟨opened, final, hBegin, hWalk, rfl, rfl⟩

end Search

end Tabu

end SwapSearch
