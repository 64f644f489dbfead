import SwapSearch.Proofs.Random.Draws
import SwapSearch.Proofs.Tabu.Frame
import SwapSearch.Proofs.Tabu.Observed

/-!
# SwapSearch — the ledger of a walk

Most of what a walk carries only steers it: clocks, tenures, burst lengths, the
random source. The *ledger* is the rest: where the walk is, what it believes about
the place, what it has recorded and how it got here. Few functions touch it, and the
others are dealt with once and for all by saying that they leave it alone.

Picks leave it alone as well, and what they pick is a pair of positions, whatever the
random source says.

## Results

* `ledger_of_refresh`, `ledger_of_exchange`    — the functions that write it.
* `ledger_recordIfBetter`                      — recording writes the best.
* `ledger_stopRequested` and its companions    — the functions that leave it alone.
* `lt_of_directedPick`, `lt_of_annealedPick`   — what is picked.
-/

namespace SwapSearch.Tabu

structure Ledger (L α : Type) where
  landscape : L
  current : Permutation
  value : α
  gains : GainTable α
  best : Permutation
  bestValue : α
  trail : List (Nat × Nat)

/-- Nothing has been done yet, and the start is the best there is. -/
def Ledger.opening {L α : Type} (landscape : L) (start : Permutation) (value : α)
    (gains : GainTable α) : Ledger L α where
  landscape := landscape
  current := start
  value := value
  gains := gains
  best := start
  bestValue := value
  trail := []

namespace Walk

variable {L α μ ρ : Type}

/-- What the walk knows and has recorded. -/
def ledger (w : Walk L α μ ρ) : Ledger L α where
  landscape := w.context.landscape
  current := w.current
  value := w.value
  gains := w.gains
  best := w.best
  bestValue := w.bestValue
  trail := w.trail

theorem size_eq_of_ledger_eq {v w : Walk L α μ ρ} (h : v.ledger = w.ledger) : v.size = w.size :=
  congrArg (fun g : Ledger L α => g.current.size) h

-- ---------------------------------------------------------------------------
-- Moving and recording
-- ---------------------------------------------------------------------------

theorem ledger_of_skip {w w' : Walk L α μ ρ} (h : w.skip = .ok w') : w'.ledger = w.ledger := by
  rw [exists_of_skip h]
  rfl

section Monitored

variable [Monitor μ α]

theorem ledger_of_refresh [Landscape L α] {w w' : Walk L α μ ρ} {hint : Option (Nat × Nat)}
    (h : w.refresh hint = .ok w') :
    ∃ landscape gains, Landscape.scan w.context.landscape w.current.values w.value hint w.gains =
        .ok (landscape, gains) ∧
      w'.ledger = { w.ledger with landscape, gains } := by
  obtain ⟨landscape, gains, cost, monitor, hScan, -, -, hNext⟩ := exists_of_refresh h
  rw [hNext]
  exact ⟨landscape, gains, hScan, rfl⟩

variable [Scalar α]

theorem ledger_stopRequested (w : Walk L α μ ρ) : w.stopRequested.2.ledger = w.ledger := by
  obtain ⟨monitor, hAsked⟩ := exists_stopRequested w
  rw [hAsked]
  rfl

theorem ledger_recordIfBetter (w : Walk L α μ ρ) :
    w.recordIfBetter.ledger =
      if w.isBetter then { w.ledger with best := w.current, bestValue := w.value }
      else w.ledger := by
  unfold recordIfBetter
  split <;> rfl

theorem ledger_of_exchange [Landscape L α] {w w' : Walk L α μ ρ} {i j : Nat}
    (h : w.exchange i j = .ok w') :
    ∃ landscape gains, Landscape.scan w.context.landscape (w.current.swap i j).values
        (w.value + w.gains.gain i j) (some (i, j)) w.gains = .ok (landscape, gains) ∧
      w'.ledger = { w.ledger with
        landscape, gains
        current := w.current.swap i j
        value := w.value + w.gains.gain i j
        trail := (i, j) :: w.trail } := by
  obtain ⟨landscape, gains, cost, monitor, hScan, -, -, hNext⟩ := exists_of_exchange h
  rw [hNext]
  exact ⟨landscape, gains, hScan, rfl⟩

end Monitored

-- ---------------------------------------------------------------------------
-- Steering
-- ---------------------------------------------------------------------------

theorem ledger_markOptimum (w : Walk L α μ ρ) : w.markOptimum.ledger = w.ledger := by
  obtain ⟨climbed, lastOptimum, hMarked⟩ := exists_markOptimum w
  rw [hMarked]
  rfl

section Random

variable [Scalar α] [RandomSource ρ]

theorem ledger_of_drawTenure {w : Walk L α μ ρ} {drawn : α × Walk L α μ ρ}
    (h : w.drawTenure = .ok drawn) : drawn.2.ledger = w.ledger := by
  obtain ⟨random, hDrawn⟩ := exists_of_drawTenure h
  rw [hDrawn]
  rfl

theorem ledger_of_settleStrength {w : Walk L α μ ρ} {jumps : Bool}
    {settled : Bool × Walk L α μ ρ} (h : w.settleStrength jumps = .ok settled) :
    settled.2.ledger = w.ledger := by
  obtain ⟨random, sinceBest, strength, -, hSettled⟩ := exists_of_settleStrength h
  rw [hSettled]
  rfl

end Random

-- ---------------------------------------------------------------------------
-- Picking
-- ---------------------------------------------------------------------------

theorem pairOfDraws_lt {n i j : Nat} (hi : i < n) (hj : j < n - 1) :
    (pairOfDraws i j).1 < (pairOfDraws i j).2 ∧ (pairOfDraws i j).2 < n := by
  unfold pairOfDraws
  dsimp only
  split <;> omega

/-- The scan for the candidate keeps the best eligible move. -/
theorem tabuCandidate_eq [Scalar α] (w : Walk L α μ ρ) (tenure : α) :
    w.tabuCandidate tenure =
      (w.gains.moves.foldl (GainTable.keepBest (w.isEligible tenure)) none).map fun m =>
        (m.first, m.second) := rfl

theorem tabuCandidate_lt [Scalar α] {w : Walk L α μ ρ} {tenure : α} {pair : Nat × Nat}
    (h : w.tabuCandidate tenure = some pair) :
    pair.1 < pair.2 ∧ pair.2 < w.gains.size := by
  rw [tabuCandidate_eq] at h
  obtain ⟨m, hKept, rfl⟩ := Option.map_eq_some_iff.mp h
  exact GainTable.lt_of_mem_moves ((GainTable.mem_of_foldl_keepBest hKept).resolve_left nofun)

section Drawing

variable [RandomSource ρ]

theorem drawPair_lt {w : Walk L α μ ρ} (hSize : 2 ≤ w.size) :
    w.drawPair.1.1 < w.drawPair.1.2 ∧ w.drawPair.1.2 < w.size :=
  pairOfDraws_lt (Random.below_lt (by omega) _) (Random.below_lt (by omega) _)

variable [Scalar α]

theorem ledger_metropolisPick (w : Walk L α μ ρ) (candidates : Array (Move α))
    (temperature : α) : (w.metropolisPick candidates temperature).2.ledger = w.ledger := by
  obtain ⟨random, hPicked⟩ := exists_metropolisPick w candidates temperature
  rw [hPicked]
  rfl

theorem mem_of_metropolisPick {w : Walk L α μ ρ} {candidates : Array (Move α)}
    {temperature : α} {pair : Nat × Nat}
    (h : (w.metropolisPick candidates temperature).1 = some pair) :
    ∃ m ∈ candidates, (m.first, m.second) = pair := by
  unfold metropolisPick at h
  split at h
  · exact nomatch h
  · dsimp only at h
    split at h
    · next m hFound =>
      exact ⟨m, Random.mem_shuffle (Array.mem_of_find?_eq_some hFound), Option.some.inj h⟩
    · obtain ⟨m, hAt, hPair⟩ := Option.map_eq_some_iff.mp h
      exact ⟨m, Random.mem_shuffle (Array.mem_of_getElem? hAt), hPair⟩

theorem ledger_of_directedPick {w : Walk L α μ ρ} {directed : α}
    {picked : Option (Nat × Nat) × Walk L α μ ρ} (h : w.directedPick directed = .ok picked) :
    picked.2.ledger = w.ledger := by
  obtain ⟨random, hPicked⟩ := exists_of_directedPick h
  rw [hPicked]
  rfl

theorem ledger_of_annealedPick {w : Walk L α μ ρ} {temperature : α}
    {picked : Option (Nat × Nat) × Walk L α μ ρ}
    (h : w.annealedPick temperature = .ok picked) : picked.2.ledger = w.ledger := by
  obtain ⟨random, hPicked⟩ := exists_of_annealedPick h
  rw [hPicked]
  rfl

/-- A directed pick is a pair of positions: the best eligible one comes from the gain table, and a
random one is one of two positions or more. -/
theorem lt_of_directedPick {w : Walk L α μ ρ} {directed : α}
    {picked : Option (Nat × Nat) × Walk L α μ ρ} {pair : Nat × Nat} (hTwo : 2 ≤ w.size)
    (hGains : w.gains.size = w.size) (h : w.directedPick directed = .ok picked)
    (hPair : picked.1 = some pair) : pair.1 < pair.2 ∧ pair.2 < w.size := by
  obtain ⟨⟨tenure, v⟩, hDrawn, h⟩ := exists_of_bind_ok h
  -- draws leave the size and the table alone, so the pair fits the walk that was given
  have hLedger : v.ledger = w.ledger := ledger_of_drawTenure hDrawn
  have hSize : v.drawUnit.2.size = w.size := size_eq_of_ledger_eq hLedger
  have hTable : v.drawUnit.2.gains = w.gains := congrArg Ledger.gains hLedger
  dsimp only at h
  split at h
  · -- the best eligible pair is in the table
    obtain rfl := Except.ok.inj h
    rw [← hGains, ← hTable]
    exact tabuCandidate_lt hPair
  · -- a random one is drawn below the size
    obtain rfl := Except.ok.inj h
    obtain rfl := Option.some.inj hPair
    rw [← hSize] at hTwo ⊢
    exact drawPair_lt hTwo

/-- An annealed pick is a pair of positions from the gain table. -/
theorem lt_of_annealedPick {w : Walk L α μ ρ} {temperature : α}
    {picked : Option (Nat × Nat) × Walk L α μ ρ} {pair : Nat × Nat}
    (hGains : w.gains.size = w.size) (h : w.annealedPick temperature = .ok picked)
    (hPair : picked.1 = some pair) : pair.1 < pair.2 ∧ pair.2 < w.size := by
  obtain ⟨⟨tenure, v⟩, hDrawn, h⟩ := exists_of_bind_ok h
  have hTable : v.gains = w.gains := congrArg Ledger.gains (ledger_of_drawTenure hDrawn)
  -- whether it aspires or is drawn, the pair comes from the table
  have hMove : ∀ m ∈ v.gains.moves, m.first < m.second ∧ m.second < w.size := by
    intro m hm
    rw [← hGains, ← hTable]
    exact GainTable.lt_of_mem_moves hm
  dsimp only at h
  split at h
  · next m hFound =>
    obtain rfl := Except.ok.inj h
    obtain rfl := Option.some.inj hPair
    exact hMove m (List.mem_of_find?_eq_some hFound)
  · obtain rfl := Except.ok.inj h
    obtain ⟨m, hCandidate, rfl⟩ := mem_of_metropolisPick hPair
    exact hMove m (List.mem_filter.mp (List.mem_toArray.mp hCandidate)).1

end Drawing

end Walk

/-- A search begins on a start of the right size, with a table that fits it. -/
theorem Search.ledger_of_begin {L α μ ρ : Type} [Scalar α] [Landscape L α] [Monitor μ α]
    {s : Search α} {start : Permutation} {value : α} {context : Context L μ ρ}
    {w : Walk L α μ ρ} (h : s.begin start value context = .ok w) :
    start.size = Landscape.size context.landscape ∧
      ∃ blank : GainTable α, blank.size = start.size ∧
        w.ledger = Ledger.opening context.landscape start value blank := by
  obtain ⟨hSize, blank, memory, hBlank, -, rfl⟩ := exists_of_begin h
  exact ⟨hSize, blank, GainTable.size_of_allocate hBlank, rfl⟩

end SwapSearch.Tabu
