import SwapSearch.Proofs.Scalar.Exact
import SwapSearch.Proofs.Tabu.Kept
import SwapSearch.Random.Generators

/-!
# SwapSearch — the accuracy of a walk

A walk never evaluates a solution. It adds gains to the value it was given, patches
its gain table along the way, and compares what comes out with the best it has
recorded. In exact arithmetic, and in a landscape that honours its gains, nothing of
this drifts: whenever the walk reads its gains, it stands where its trail has led,
its value is the value of that solution, and its gains are the true ones.

The best is recorded late. A burst breaks off as soon as it beats the best, and it
is the launch that records what was found. Between an exchange and the next record
the present solution may be ahead of the best: the walk has `Moved`. Once it has
compared the present solution with the best it is `Sound`, and only a sound walk
moves on.

## Results

* `moved_of_exchange`          — an exchange leads from sound to moved.
* `Moved.sound_recordIfBetter` — recording leads back.
* `kept_sound`                 — what all parts of a walk keep.
* `improve_accurate`           — what a search reads is true, and it returns a best.
-/

namespace SwapSearch.Tabu

open Observed

-- ---------------------------------------------------------------------------
-- Invariants
-- ---------------------------------------------------------------------------

variable {L α μ ρ : Type}

/-- The walk knows the value of the present solution, and its gains come from scans that followed
every exchange. -/
structure Accurate [Landscape L α] (f : Permutation → α) (l₀ : L) (g : Ledger L α) : Prop where
  scanned : Scanned f l₀ g.landscape g.current g.gains
  value_eq : g.value = f g.current

theorem Accurate.size_eq [Landscape L α] {f : Permutation → α} {l₀ : L} {w : Walk L α μ ρ}
    (h : Accurate f l₀ w.ledger) : w.size = Landscape.size l₀ :=
  h.scanned.size_eq

variable [ExactScalar α]

/-- The best is a visited solution that no visited solution beats, except perhaps the present
one. -/
structure Pending (f : Permutation → α) (start : Permutation) (g : Ledger L α) : Prop where
  current_eq : g.current = replay start g.trail
  best_mem : g.best ∈ visited start g.trail
  bestValue_eq : g.bestValue = f g.best
  start_le : f start ≤ g.bestValue
  covers : ∀ p ∈ visited start g.trail, p ≠ g.current →
    f p - Scalar.tolerance ≤ g.bestValue

/-- The present solution does not beat the best either. -/
structure Recorded (f : Permutation → α) (start : Permutation) (g : Ledger L α) : Prop
    extends Pending f start g where
  covers_current : f g.current - Scalar.tolerance ≤ g.bestValue

variable {f : Permutation → α} {start : Permutation}

theorem Recorded.covers_visited {g : Ledger L α} (h : Recorded f start g) :
    ∀ p ∈ visited start g.trail, f p - Scalar.tolerance ≤ g.bestValue := by
  intro p hp
  by_cases hCurrent : p = g.current
  · rw [hCurrent]
    exact h.covers_current
  · exact h.covers p hp hCurrent

variable [Landscape L α] {l₀ : L}

/-- A walk that reads its gains is both accurate and recorded. -/
def Sound (f : Permutation → α) (l₀ : L) (start : Permutation) (w : Walk L α μ ρ) : Prop :=
  Accurate f l₀ w.ledger ∧ Recorded f start w.ledger

/-- A walk that has just made an exchange is accurate, but its best may be behind. -/
def Moved (f : Permutation → α) (l₀ : L) (start : Permutation) (w : Walk L α μ ρ) : Prop :=
  Accurate f l₀ w.ledger ∧ Pending f start w.ledger

theorem Sound.moved {w : Walk L α μ ρ} (h : Sound f l₀ start w) : Moved f l₀ start w :=
  ⟨h.1, h.2.toPending⟩

theorem Sound.of_ledger_eq {v w : Walk L α μ ρ} (h : Sound f l₀ start w)
    (hLedger : v.ledger = w.ledger) : Sound f l₀ start v := by
  unfold Sound
  rw [hLedger]
  exact h

/-- A sound walk has one row of gains for each position. -/
theorem Sound.gains_size (hContract : HonoursGains f l₀) {w : Walk L α μ ρ}
    (h : Sound f l₀ start w) : w.gains.size = w.size :=
  hContract.size h.1.scanned

/-- A solution that does not beat the best needs no record. -/
theorem Moved.sound_of_not_better {w : Walk L α μ ρ} (h : Moved f l₀ start w)
    (hBetter : w.isBetter = false) : Sound f l₀ start w := by
  obtain ⟨hAccurate, hPending⟩ := h
  refine ⟨hAccurate, hPending, ?_⟩
  rw [← hAccurate.value_eq]
  exact ExactScalar.le_of_not_beats hBetter

-- ---------------------------------------------------------------------------
-- One exchange, one record
-- ---------------------------------------------------------------------------

section Steps

variable [Monitor μ α]

/-- An exchange of true gains adds up to the value of the neighbour. -/
theorem accurate_of_exchange (hContract : HonoursGains f l₀) {w w' : Walk L α μ ρ} {i j : Nat}
    (hij : i < j) (hj : j < w.size) (hAccurate : Accurate f l₀ w.ledger)
    (h : w.exchange i j = .ok w') : Accurate f l₀ w'.ledger := by
  obtain ⟨landscape, gains, hScan, hLedger⟩ := Walk.ledger_of_exchange h
  have hValue : w.value + w.gains.gain i j = f (w.current.swap i j) := by
    have hGain : w.gains.gain i j = f (w.current.swap i j) - f w.current :=
      hContract.gains hAccurate.scanned i j hij hj
    have hCurrent : w.value = f w.current := hAccurate.value_eq
    rw [hGain, hCurrent]
    exact add_sub_cancel (f w.current) _
  rw [hLedger]
  refine ⟨?_, hValue⟩
  rw [hValue] at hScan
  exact Scanned.next hAccurate.scanned hij hj hScan

/-- Before an exchange everything visited is covered; after it the new solution may not be. -/
theorem pending_of_exchange {w w' : Walk L α μ ρ} {i j : Nat}
    (hRecorded : Recorded f start w.ledger) (h : w.exchange i j = .ok w') :
    Pending f start w'.ledger := by
  obtain ⟨landscape, gains, -, hLedger⟩ := Walk.ledger_of_exchange h
  rw [hLedger]
  have hReplay : w.current.swap i j = replay start ((i, j) :: w.trail) :=
    congrArg (fun p => Permutation.swap p i j) hRecorded.current_eq
  -- the best was visited before, and only the solution just reached is not covered yet
  refine ⟨hReplay, ?_, hRecorded.bestValue_eq, hRecorded.start_le, fun p hp hNe => ?_⟩
  · dsimp only
    rw [visited_cons]
    exact List.mem_cons_of_mem _ hRecorded.best_mem
  · dsimp only at hp hNe
    rw [visited_cons] at hp
    rcases List.mem_cons.mp hp with hEq | hOlder
    · exact absurd (hEq.trans hReplay.symm) hNe
    · exact hRecorded.covers_visited p hOlder

theorem moved_of_exchange (hContract : HonoursGains f l₀) {w w' : Walk L α μ ρ} {i j : Nat}
    (hij : i < j) (hj : j < w.size) (hSound : Sound f l₀ start w)
    (h : w.exchange i j = .ok w') : Moved f l₀ start w' :=
  ⟨accurate_of_exchange hContract hij hj hSound.1 h, pending_of_exchange hSound.2 h⟩

/-- A solution that beats the best, once recorded, covers itself and all that the best had
covered. -/
theorem Moved.sound_recordIfBetter {w : Walk L α μ ρ} (h : Moved f l₀ start w) :
    Sound f l₀ start w.recordIfBetter := by
  cases hBetter : w.isBetter with
  | false =>
    -- nothing is recorded, and what is not better is covered by the best up to the tolerance
    refine (h.sound_of_not_better hBetter).of_ledger_eq ?_
    rw [Walk.ledger_recordIfBetter, hBetter]
    exact if_neg Bool.false_ne_true
  | true =>
    -- the present solution becomes the best, and lies above all that the old one had covered
    obtain ⟨hAccurate, hPending⟩ := h
    have hBeats : w.bestValue < w.value := ExactScalar.lt_of_beats hBetter
    have hValue : w.value = f w.current := hAccurate.value_eq
    have hCurrent : w.current = replay start w.trail := hPending.current_eq
    unfold Sound
    rw [Walk.ledger_recordIfBetter, if_pos hBetter]
    refine ⟨⟨hAccurate.scanned, hValue⟩, ⟨hCurrent, ?_, hValue, ?_, fun p hp hNe => ?_⟩, ?_⟩
    · show w.current ∈ visited start w.trail
      rw [hCurrent]
      exact replay_mem_visited start w.trail
    · exact hPending.start_le.trans hBeats.le
    · exact (hPending.covers p hp hNe).trans hBeats.le
    · show f w.current - Scalar.tolerance ≤ w.value
      rw [← hValue]
      exact sub_le_self _ ExactScalar.tolerance_nonneg

theorem Sound.stopRequested {w : Walk L α μ ρ} (h : Sound f l₀ start w) :
    Sound f l₀ start w.stopRequested.2 :=
  h.of_ledger_eq (Walk.ledger_stopRequested w)

end Steps

variable [Monitor μ α]

/-- **A walk stays accurate.** Whenever it asks whether to stop it is sound, and only between an
exchange and the next record its best may be behind. -/
theorem kept_sound (hContract : HonoursGains f l₀) (hSize : 2 ≤ Landscape.size l₀) :
    Kept (Sound f l₀ start) (Sound f l₀ start) (Moved f l₀ start : Walk L α μ ρ → Prop) where
  ask _ h := ⟨h.stopRequested, fun _ => h.stopRequested⟩
  weaken _ h := h
  draw _ _ h := h.of_ledger_eq rfl
  skip _ _ h hSkip := h.of_ledger_eq (Walk.ledger_of_skip hSkip)
  swap w i j next h hPair hExchange := by
    have hTwo : 2 ≤ w.size := h.1.size_eq ▸ hSize
    obtain ⟨hij, hj⟩ := hPair hTwo (h.gains_size hContract)
    exact moved_of_exchange hContract hij hj h hExchange
  calm _ h hBetter := h.sound_of_not_better hBetter
  relax _ h := h.moved
  record _ h := h.sound_recordIfBetter
  prepare _ _ _ _ _ _ _ h := h.of_ledger_eq rfl

-- ---------------------------------------------------------------------------
-- Searches
-- ---------------------------------------------------------------------------

variable [RandomSource ρ]

omit [Monitor μ α] [RandomSource ρ] [Landscape L α] in
theorem recorded_opening (l₀ : L) (start : Permutation) (gains : GainTable α) :
    Recorded f start (Ledger.opening l₀ start (f start) gains) := by
  have hAlone : ∀ p ∈ visited start [], p = start := fun p hp => List.mem_singleton.mp hp
  exact {
    current_eq := rfl
    best_mem := replay_mem_visited start []
    bestValue_eq := rfl
    start_le := le_refl (f start)
    covers := fun p hp hNe => absurd (hAlone p hp) hNe
    covers_current := sub_le_self _ ExactScalar.tolerance_nonneg }

omit [RandomSource ρ] in
/-- The first scan makes a search sound. -/
theorem sound_of_refresh (hSize : start.size = Landscape.size l₀) {blank : GainTable α}
    (hBlank : blank.size = start.size) {w w' : Walk L α μ ρ}
    (hOpening : w.ledger = Ledger.opening l₀ start (f start) blank)
    (h : w.refresh none = .ok w') : Sound f l₀ start w' := by
  obtain ⟨landscape, gains, hScan, hLedger⟩ := Walk.ledger_of_refresh h
  have hFirst : Landscape.scan w.ledger.landscape w.ledger.current.values w.ledger.value none
      w.ledger.gains = .ok (landscape, gains) := hScan
  rw [hOpening] at hFirst hLedger
  have hOpened := recorded_opening (f := f) l₀ start blank
  unfold Sound
  rw [hLedger]
  exact ⟨⟨Scanned.first hSize hBlank hFirst, rfl⟩,
    ⟨hOpened.current_eq, hOpened.best_mem, hOpened.bestValue_eq, hOpened.start_le,
      hOpened.covers⟩, hOpened.covers_current⟩

/-- A search that stops before the first scan returns its start, which is on record; any other is
sound from the first scan on. Either way the walk ends where it knows the value. -/
theorem upholds_observeWalk (hContract : HonoursGains f l₀)
    (hSize : start.size = Landscape.size l₀) {blank : GainTable α}
    (hBlank : blank.size = start.size) (limit : Nat) {w : Walk L α μ ρ}
    (hOpening : w.ledger = Ledger.opening l₀ start (f start) blank) :
    Upholds (Search.observeWalk limit w) (Sound f l₀ start)
      fun w => Recorded f start w.ledger ∧ w.value = f w.current := by
  -- a walk that has not scanned knows nothing but its start, which is on record
  have hKnown : ∀ v : Walk L α μ ρ, v.ledger = Ledger.opening l₀ start (f start) blank →
      Recorded f start v.ledger ∧ v.ledger.value = f v.ledger.current := by
    intro v hv
    rw [hv]
    exact ⟨recorded_opening l₀ start blank, rfl⟩
  have hAsked : w.stopRequested.2.ledger = Ledger.opening l₀ start (f start) blank :=
    (Walk.ledger_stopRequested w).trans hOpening
  refine upholds_observeWalk_of_run (hKnown w hOpening) (hKnown _ hAsked)
    fun hTwo next hRefresh => ?_
  have hStart : w.size = start.size := congrArg (fun g : Ledger L α => g.current.size) hOpening
  -- the first scan makes the gains true, and from there the invariant carries on
  have hScanned := sound_of_refresh hSize hBlank hAsked hRefresh
  have hRun := (kept_sound hContract (by omega)).upholds_run (fun _ h => h.of_ledger_eq rfl) limit
    hScanned
  refine ⟨hRun.seen, fun final hFinal => ?_⟩
  obtain ⟨hAccurate, hRecorded⟩ := hRun.result final hFinal
  exact ⟨hRecorded, hAccurate.value_eq⟩

/-- What a reader of the gains finds: the value and the gains of where the trail has led. -/
structure TrueReading (l₀ : L) (start : Permutation) (w : Walk L α μ ρ) : Prop where
  replayed : w.current = replay start w.trail
  value : Landscape.evaluate l₀ w.current.values = .ok w.value
  gains : ∀ i j, i < j → j < w.size → ∃ v,
    Landscape.evaluate l₀ (w.current.swap i j).values = .ok v ∧ w.gains.gain i j = v - w.value

/-- A visited solution with its value, which no visited solution beats. -/
structure BestVisited (l₀ : L) (start : Permutation) (outcome : Outcome α) : Prop where
  value : Landscape.evaluate l₀ outcome.solution.values = .ok outcome.value
  visited : outcome.solution ∈ visited start outcome.trail
  covers : ∀ p ∈ Tabu.visited start outcome.trail, ∃ v,
    Landscape.evaluate l₀ p.values = .ok v ∧ v - Scalar.tolerance ≤ outcome.value

omit [Monitor μ α] [RandomSource ρ] in
theorem Sound.trueReading (hContract : HonoursGains f l₀) {w : Walk L α μ ρ}
    (h : Sound f l₀ start w) : TrueReading l₀ start w := by
  obtain ⟨hAccurate, hRecorded⟩ := h
  have hSize : w.current.size = Landscape.size l₀ := hAccurate.size_eq
  have hValue : w.value = f w.current := hAccurate.value_eq
  refine ⟨hRecorded.current_eq, ?_, fun i j hij hj => ⟨f (w.current.swap i j), ?_, ?_⟩⟩
  · rw [hValue]
    exact hContract.evaluate w.current hSize
  · exact hContract.evaluate _ ((Permutation.size_swap ..).trans hSize)
  · rw [hValue]
    exact hContract.gains hAccurate.scanned i j hij hj

omit [Monitor μ α] [RandomSource ρ] in
theorem Recorded.bestVisited (hContract : HonoursGains f l₀)
    (hSize : start.size = Landscape.size l₀) {w : Walk L α μ ρ}
    (h : Recorded f start w.ledger) : BestVisited l₀ start w.outcome := by
  have hEvaluate : ∀ p ∈ visited start w.trail, Landscape.evaluate l₀ p.values = .ok (f p) :=
    fun p hp => hContract.evaluate p ((size_of_mem_visited hp).trans hSize)
  have hBest : w.bestValue = f w.best := h.bestValue_eq
  refine ⟨?_, h.best_mem, fun p hp => ⟨f p, hEvaluate p hp, h.covers_visited p hp⟩⟩
  show Landscape.evaluate l₀ w.best.values = .ok w.bestValue
  rw [hBest]
  exact hEvaluate w.best h.best_mem

/-- What a search reads is true, and what it returns is a best of what it visited. -/
theorem upholds_observeImprove (s : Search α) (limit : Nat) {value : α} {context : Context L μ ρ}
    (hContract : HonoursGains f context.landscape)
    (hValue : Landscape.evaluate context.landscape start.values = .ok value) :
    Upholds (s.observeImprove start value limit context) (TrueReading context.landscape start)
      fun returned =>
        BestVisited context.landscape start returned.1 ∧ value ≤ returned.1.value := by
  refine Upholds.bind (Upholds.lift fun w hBegin => Search.ledger_of_begin hBegin)
    fun w hOpening => ?_
  obtain ⟨hSize, blank, hBlank, hLedger⟩ := hOpening
  obtain rfl : value = f start :=
    Except.ok.inj (hValue.symm.trans (hContract.evaluate start hSize))
  have hWalk := upholds_observeWalk hContract hSize hBlank limit hLedger
  refine Upholds.bind ⟨fun w hw => (hWalk.seen w hw).trueReading hContract, hWalk.result⟩
    fun final hFinal => ?_
  exact Upholds.pure ⟨hFinal.1.bestVisited hContract hSize, hFinal.1.start_le⟩

/-- A search that returns has found the value of what it returns. -/
theorem bestVisited_of_improve {s : Search α} {limit : Nat} {value : α}
    {context rest : Context L μ ρ} {outcome : Outcome α}
    (hContract : HonoursGains f context.landscape)
    (hValue : Landscape.evaluate context.landscape start.values = .ok value)
    (h : s.improve start value limit context = .ok (outcome, rest)) :
    BestVisited context.landscape start outcome := by
  rw [← s.result_observeImprove] at h
  exact ((upholds_observeImprove s limit hContract hValue).result (outcome, rest) h).1

/-- **A search is accurate.** From a start with its value, in a landscape that honours its gains:
whatever a search reads is true, even if it fails later on; it reads before every exchange; and
what it returns is a best of the solutions it visited, no worse than the start. -/
theorem improve_accurate (s : Search α) (limit : Nat) {value : α} {context : Context L μ ρ}
    (hContract : HonoursGains f context.landscape)
    (hValue : Landscape.evaluate context.landscape start.values = .ok value) :
    (s.observeImprove start value limit context).result = s.improve start value limit context ∧
    (∀ w ∈ (s.observeImprove start value limit context).seen,
      TrueReading context.landscape start w) ∧
    ∀ outcome rest, s.improve start value limit context = .ok (outcome, rest) →
      (∀ pair older, pair :: older <:+ outcome.trail →
        ∃ w ∈ (s.observeImprove start value limit context).seen, w.trail = older) ∧
      BestVisited context.landscape start outcome ∧ value ≤ outcome.value := by
  have hImprove := upholds_observeImprove s limit hContract hValue
  refine ⟨s.result_observeImprove start value limit context, hImprove.seen, ?_⟩
  intro outcome rest hReturned
  rw [← s.result_observeImprove] at hReturned
  refine ⟨fun pair older hSuffix => ?_, hImprove.result (outcome, rest) hReturned⟩
  have hSeen := s.accounts_observeImprove start value limit context (outcome, rest) hReturned
  refine (hSeen pair older hSuffix).resolve_left fun hNone => ?_
  exact List.cons_ne_nil pair older (List.suffix_nil.mp hNone)

/-- Larger items at later positions are worth more. -/
def rising (values : Array Nat) : ℚ :=
  ((values.toList.zipIdx.map fun entry => entry.1 * entry.2).sum : ℕ)

def risingContext : Context (Objective ℚ) (Silent ℚ) Random.SplitMix where
  landscape := Objective.ofEvaluation 3 fun values => .ok (rising values)
  budget := Budget.grant 100
  monitor := {}
  random := ⟨7⟩

def falling : Permutation := ⟨#[2, 1, 0], by decide, by decide⟩

def defaultSearch : Search ℚ where
  settings := Settings.default
  valid := by decide +kernel

/-- Six iterations climb to the top and launch bursts from there. -/
theorem improve_accurate_rising :
    HonoursGains (fun p => rising p.values) risingContext.landscape ∧
    Landscape.evaluate risingContext.landscape falling.values = .ok 1 ∧
    (∀ w ∈ (defaultSearch.observeImprove falling 1 6 risingContext).seen,
      TrueReading risingContext.landscape falling w) ∧
    ∃ outcome rest, defaultSearch.improve falling 1 6 risingContext = .ok (outcome, rest) ∧
      (∀ pair older, pair :: older <:+ outcome.trail →
        ∃ w ∈ (defaultSearch.observeImprove falling 1 6 risingContext).seen, w.trail = older) ∧
      BestVisited risingContext.landscape falling outcome ∧ 1 ≤ outcome.value := by
  have hContract : HonoursGains (fun p => rising p.values) risingContext.landscape :=
    honoursGains_ofEvaluation fun _ _ => rfl
  have hValue : Landscape.evaluate risingContext.landscape falling.values = .ok 1 := by
    decide +kernel
  obtain ⟨-, hSeen, hReturned⟩ := improve_accurate defaultSearch 6 hContract hValue
  have hOk : (defaultSearch.improve falling 1 6 risingContext).toOption.isSome = true := by
    decide +kernel
  refine ⟨hContract, hValue, hSeen, ?_⟩
  cases hImprove : defaultSearch.improve falling 1 6 risingContext with
  | error e =>
    rw [hImprove] at hOk
    exact nomatch hOk
  | ok returned => exact ⟨returned.1, returned.2, rfl, hReturned returned.1 returned.2 hImprove⟩

end SwapSearch.Tabu
