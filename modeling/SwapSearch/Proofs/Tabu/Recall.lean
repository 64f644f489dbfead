import SwapSearch.Proofs.Tabu.Candidate
import Mathlib.Algebra.BigOperators.Group.Finset.Basic
import SwapSearch.Proofs.Tabu.Kept
import SwapSearch.Proofs.Tabu.Success

/-!
# SwapSearch — what a walk remembers

Of every pair a walk remembers when it was last exchanged and how often. The clock is
ahead of everything remembered: an exchange is remembered at the present time, and the
clock advances with it. It advances as well when a burst step passes without a swap.

The frequencies are counts of the trail, cut off at the largest 32-bit number. As long as
none is cut off, they add up to the number of swaps.

Both need that pairs have cells of their own, in the memory as in the gain table. So the
scans of the landscape must not change the size of the table.

## Results

* `Recalled.sum_eq`     — the frequencies add up.
* `kept_recalled`       — every part of a walk keeps its memory in order.
* `improve_disciplined` — what a walk picks and remembers, wherever it is.
-/

namespace SwapSearch.Tabu

open Observed Relation

-- ---------------------------------------------------------------------------
-- Memory
-- ---------------------------------------------------------------------------

namespace Memory

variable {m : Memory} {i j k l iteration : Nat}

theorem lastSwap_record (m : Memory) (i j k l iteration : Nat) :
    (m.record i j iteration).lastSwap k l = some iteration ∨
      (m.record i j iteration).lastSwap k l = m.lastSwap k l := by
  show (m.last.setIfInBounds (m.offset i j) (some iteration)).getD (m.offset k l) none = _ ∨
    (m.last.setIfInBounds (m.offset i j) (some iteration)).getD (m.offset k l) none = _
  by_cases hSame : m.offset i j = m.offset k l
  · by_cases hCell : m.offset k l < m.last.size
    · simp [hSame, hCell, Array.getD]
    · simp [hSame, hCell, Array.getD, lastSwap]
  · simp [hSame, lastSwap]

theorem frequency_record_self (hij : i < j) (hj : j < m.size) :
    (m.record i j iteration).frequency i j = min (m.frequency i j + 1) (Word.halfSize - 1) := by
  have hCell : m.offset i j < m.count.size := by
    rw [m.count_size]
    exact GainTable.offset_lt hij hj
  show (m.count.setIfInBounds (m.offset i j) _).getD (m.offset i j) 0 = _
  simp [Array.getD, hCell]

theorem frequency_record_of_ne (hij : i < j) (hj : j < m.size) (hkl : k < l) (hl : l < m.size)
    (hNe : (i, j) ≠ (k, l)) : (m.record i j iteration).frequency k l = m.frequency k l := by
  have hOther : m.offset i j ≠ m.offset k l := fun h => by
    obtain ⟨rfl, rfl⟩ := GainTable.offset_inj hij hj hkl hl h
    exact hNe rfl
  show (m.count.setIfInBounds (m.offset i j) _).getD (m.offset k l) 0 = m.frequency k l
  simp [hOther, frequency]

theorem eq_blank_of_allocate {n : Nat} (h : allocate n = .ok m) : m = blank n := by
  obtain ⟨cells, -, h⟩ := exists_of_bind_ok h
  obtain ⟨-, -, h⟩ := exists_of_bind_ok h
  exact (Except.ok.inj h).symm

@[simp] theorem lastSwap_blank (n i j : Nat) : (blank n).lastSwap i j = none := by
  simp [lastSwap, blank, Array.getD]

@[simp] theorem frequency_blank (n i j : Nat) : (blank n).frequency i j = 0 := by
  simp [frequency, blank, Array.getD]

end Memory

-- ---------------------------------------------------------------------------
-- The invariant
-- ---------------------------------------------------------------------------

/-- Scans of solutions of `n` positions that get a table of that size leave one, now and later. -/
def KeepsSize {L α : Type} [Landscape L α] (n : Nat) (l : L) : Prop :=
  ∃ Good : L → Prop, Good l ∧ ∀ l, Good l → ∀ (p : Permutation) (value : α)
    (hint : Option (Nat × Nat)) (table : GainTable α) (scanned : L × GainTable α),
    p.size = n → table.size = n → (∀ pair ∈ hint, pair.1 < pair.2 ∧ pair.2 < n) →
    Landscape.scan l p.values value hint table = .ok scanned →
    Good scanned.1 ∧ scanned.2.size = n

theorem KeepsSize.scan {L α : Type} [Landscape L α] {n : Nat} {l : L} (h : KeepsSize n l)
    {p : Permutation} {value : α} {hint : Option (Nat × Nat)} {table : GainTable α}
    {scanned : L × GainTable α} (hSize : p.size = n) (hTable : table.size = n)
    (hHint : ∀ pair ∈ hint, pair.1 < pair.2 ∧ pair.2 < n)
    (hScan : Landscape.scan l p.values value hint table = .ok scanned) :
    KeepsSize n scanned.1 ∧ scanned.2.size = n := by
  obtain ⟨Good, hGood, hStep⟩ := h
  obtain ⟨hNext, hKept⟩ := hStep l hGood p value hint table scanned hSize hTable hHint hScan
  exact ⟨⟨Good, hNext, hStep⟩, hKept⟩

theorem Scannable.keepsSize {L α : Type} [Landscape L α] {n : Nat} {l : L} (h : Scannable n l) :
    KeepsSize n l := by
  obtain ⟨Good, hGood, hStep⟩ := h
  refine ⟨Good, hGood, fun l hl p value hint table scanned hSize hTable hHint hScan => ?_⟩
  obtain ⟨scanned', hOk, hKept⟩ := hStep l hl p value hint table hSize hTable hHint
  obtain rfl := Except.ok.inj (hOk.symm.trans hScan)
  exact hKept

variable {L α μ ρ : Type}

/-- What the memory of a walk over `n` positions has to do with its trail and its clock. -/
structure Recalled [Landscape L α] (n : Nat) (w : Walk L α μ ρ) : Prop where
  size_eq : w.size = n
  gains_size : w.gains.size = n
  memory_size : w.memory.size = n
  keeps : KeepsSize n w.context.landscape
  pairs : ∀ pair ∈ w.trail, pair.1 < pair.2 ∧ pair.2 < n
  swaps_eq : w.swaps = w.trail.length
  recent : ∀ i j last, w.memory.lastSwap i j = some last → last < w.clock
  frequency_eq : ∀ i j, i < j → j < n →
    w.memory.frequency i j = min (w.trail.count (i, j)) (Word.halfSize - 1)

variable [Landscape L α] {n : Nat} {w w' : Walk L α μ ρ}

-- ---------------------------------------------------------------------------
-- Frequencies
-- ---------------------------------------------------------------------------

/-- As long as no count is cut off, the frequencies add up to the number of swaps. -/
theorem Recalled.sum_eq (hw : Recalled n w)
    (hUncut : ∀ i j, i < j → j < n → w.trail.count (i, j) < Word.halfSize) :
    ((swapPairs n).map fun pair => w.memory.frequency pair.1 pair.2).sum = w.swaps := by
  -- below the cut every frequency is the true count
  have hCounts : ∀ pair ∈ swapPairs n,
      w.memory.frequency pair.1 pair.2 = w.trail.count pair := by
    rintro ⟨i, j⟩ hPair
    obtain ⟨hij, hj⟩ := mem_swapPairs.mp hPair
    have hBelow := hUncut i j hij hj
    rw [hw.frequency_eq i j hij hj]
    omega
  have hListed : ∀ pair ∈ (w.trail : Multiset (Nat × Nat)), pair ∈ (swapPairs n).toFinset :=
    fun pair hPair => List.mem_toFinset.mpr (mem_swapPairs.mpr (hw.pairs pair hPair))
  -- every exchange on the trail is one of the pairs, so the counts of all pairs miss none
  calc ((swapPairs n).map fun pair => w.memory.frequency pair.1 pair.2).sum
      = ((swapPairs n).map fun pair => w.trail.count pair).sum := by
        rw [List.map_congr_left hCounts]
    _ = ∑ pair ∈ (swapPairs n).toFinset, w.trail.count pair :=
        (List.sum_toFinset _ (nodup_swapPairs n)).symm
    _ = ∑ pair ∈ (swapPairs n).toFinset, (w.trail : Multiset (Nat × Nat)).count pair := by
        simp only [Multiset.coe_count]
        rw [lawful_beq_subsingleton instBEqProd instBEqOfDecidableEq]
    _ = w.trail.length := Multiset.sum_count_eq_card hListed
    _ = w.swaps := hw.swaps_eq.symm

-- ---------------------------------------------------------------------------
-- Steps
-- ---------------------------------------------------------------------------

theorem recalled_of_refresh [Monitor μ α] {hint : Option (Nat × Nat)}
    (hHint : ∀ pair ∈ hint, pair.1 < pair.2 ∧ pair.2 < n) (hw : Recalled n w)
    (h : w.refresh hint = .ok w') : Recalled n w' := by
  obtain ⟨landscape, gains, cost, monitor, hScan, -, -, rfl⟩ := Walk.exists_of_refresh h
  obtain ⟨hKeeps, hGains⟩ := hw.keeps.scan hw.size_eq hw.gains_size hHint hScan
  exact { hw with gains_size := hGains, keeps := hKeeps }

variable [Scalar α]

/-- A move is remembered at the present time, and the clock goes on. -/
theorem recalled_moved {i j : Nat} (hij : i < j) (hj : j < n) (hw : Recalled n w) :
    Recalled n (w.moved i j) where
  size_eq := (Permutation.size_swap ..).trans hw.size_eq
  gains_size := hw.gains_size
  memory_size := hw.memory_size
  keeps := hw.keeps
  pairs := by
    intro pair hPair
    rcases List.mem_cons.mp hPair with rfl | hOlder
    · exact ⟨hij, hj⟩
    · exact hw.pairs pair hOlder
  swaps_eq := congrArg (· + 1) hw.swaps_eq
  recent := by
    intro k l last hLast
    show last < w.clock + 1
    -- only the pair that is moved is remembered anew, and at the present time
    rcases w.memory.lastSwap_record i j k l w.clock with hNow | hBefore
    · obtain rfl := Option.some.inj (hLast.symm.trans hNow)
      exact Nat.lt_succ_self _
    · exact Nat.lt_succ_of_lt (hw.recent k l last (hBefore.symm.trans hLast))
  frequency_eq := by
    intro k l hkl hl
    show (w.memory.record i j w.clock).frequency k l = min (((i, j) :: w.trail).count (k, l)) _
    have hBefore := hw.frequency_eq k l hkl hl
    have hSize := hw.memory_size
    by_cases hSame : (i, j) = (k, l)
    · -- the frequency and the count go up together, until the frequency is cut off
      obtain ⟨rfl, rfl⟩ := Prod.mk.inj hSame
      rw [Memory.frequency_record_self hij (hSize ▸ hj), List.count_cons_self, hBefore]
      omega
    · rw [Memory.frequency_record_of_ne hij (hSize ▸ hj) hkl (hSize ▸ hl) hSame,
        List.count_cons_of_ne hSame, hBefore]

variable [Monitor μ α]

/-- What an exchange leaves in memory. -/
theorem recalled_of_exchange {i j : Nat} (hij : i < j) (hj : j < n) (hw : Recalled n w)
    (h : w.exchange i j = .ok w') : Recalled n w' := by
  refine recalled_of_refresh (fun pair hPair => ?_) (recalled_moved hij hj hw)
    (Walk.refresh_of_exchange h)
  obtain rfl := Option.some.inj hPair
  exact ⟨hij, hj⟩

theorem Recalled.stopRequested (hw : Recalled n w) : Recalled n w.stopRequested.2 := by
  obtain ⟨monitor, hAsked⟩ := w.exists_stopRequested
  rw [hAsked]
  exact { hw with }

/-- **Every part of a walk keeps its memory in order.** -/
theorem kept_recalled (hTwo : 2 ≤ n) :
    Kept (Recalled n : Walk L α μ ρ → Prop) (Recalled n) (Recalled n) where
  ask _ hw := ⟨hw.stopRequested, fun _ => hw.stopRequested⟩
  weaken _ hw := hw
  draw _ _ hw := { hw with }
  skip w next hw hSkip := by
    obtain rfl := Walk.exists_of_skip hSkip
    exact { hw with recent := fun i j last h => Nat.lt_succ_of_lt (hw.recent i j last h) }
  -- the memory is told of pairs in order only, which the picks see to
  swap w i j next hw hPair hExchange := by
    obtain ⟨hij, hj⟩ := hPair (hw.size_eq ▸ hTwo) (hw.gains_size.trans hw.size_eq.symm)
    exact recalled_of_exchange hij (hw.size_eq ▸ hj) hw hExchange
  calm _ hw _ := hw
  relax _ hw := hw
  record w hw := by
    obtain ⟨best, bestValue, sinceBest, monitor, hRecorded⟩ := w.exists_recordIfBetter
    rw [hRecorded]
    exact { hw with }
  prepare _ _ _ _ _ _ _ hw := { hw with }

theorem recalled_of_begin {s : Search α} {start : Permutation} {value : α}
    {context : Context L μ ρ} (hKeeps : KeepsSize start.size context.landscape)
    (h : s.begin start value context = .ok w) : Recalled start.size w := by
  obtain ⟨-, gains, memory, hGains, hMemory, rfl⟩ := Search.exists_of_begin h
  obtain rfl := Memory.eq_blank_of_allocate hMemory
  exact {
    size_eq := rfl
    gains_size := GainTable.size_of_allocate hGains
    memory_size := rfl
    keeps := hKeeps
    pairs := nofun
    swaps_eq := rfl
    recent := by simp [Search.opened]
    frequency_eq := by simp [Search.opened] }

theorem upholds_recalled [RandomSource ρ] (limit : Nat) (hw : Recalled n w) :
    Upholds (Search.observeWalk limit w) (Recalled n) (Recalled n) := by
  refine upholds_observeWalk_of_run hw hw.stopRequested fun hTwo next hRefresh => ?_
  have hScanned := recalled_of_refresh (by simp) hw.stopRequested hRefresh
  exact (kept_recalled (hw.size_eq ▸ hTwo)).upholds_run (fun _ h => { h with }) limit hScanned

-- ---------------------------------------------------------------------------
-- Discipline
-- ---------------------------------------------------------------------------

/-- What a walk over `n` positions picks under a tenure, and what it remembers. -/
structure Disciplined {α : Type} [ExactScalar α] (n : Nat) (w : Walk L α μ ρ) : Prop where
  gains_size : w.gains.size = n
  none_iff : ∀ tenure, w.tabuCandidate tenure = none ↔ ∀ i j, i < j → j < n →
    w.memory.isTabu i j w.clock tenure = true ∧ w.aspires (w.gains.gain i j) = false
  candidate : ∀ tenure i j, w.tabuCandidate tenure = some (i, j) →
    w.gains.BestPair (w.Allows tenure) i j ∧
    ∀ k l, k < l → l < n → w.aspires (w.gains.gain k l) = true →
      w.aspires (w.gains.gain i j) = true
  recent : ∀ i j last, w.memory.lastSwap i j = some last → last < w.clock
  frequency_eq : ∀ i j, i < j → j < n →
    w.memory.frequency i j = min (w.trail.count (i, j)) (Word.halfSize - 1)
  frequency_sum : (∀ i j, i < j → j < n → w.trail.count (i, j) < Word.halfSize) →
    ((swapPairs n).map fun pair => w.memory.frequency pair.1 pair.2).sum = w.swaps

section Search

variable {α : Type} [ExactScalar α] {n : Nat} {w : Walk L α μ ρ}

theorem Recalled.disciplined [Landscape L α] (hw : Recalled n w) : Disciplined n w where
  gains_size := hw.gains_size
  none_iff tenure := by
    rw [Walk.tabuCandidate_eq_none_iff]
    simp only [Walk.Heeds, Walk.not_allows_iff, hw.gains_size]
  candidate tenure i j hPicked := by
    refine ⟨Walk.bestPair_of_tabuCandidate hPicked, fun k l hkl hl hAspires => ?_⟩
    exact Walk.aspires_of_tabuCandidate hPicked hkl (hw.gains_size ▸ hl) hAspires
  recent := hw.recent
  frequency_eq := hw.frequency_eq
  frequency_sum := hw.sum_eq

variable [Landscape L α] [Monitor μ α] [RandomSource ρ]

/-- **Tabu discipline.** In a landscape whose scans keep the size of the table, let a search start
anywhere. Wherever the walk looks around, and where it ends, it has a candidate unless every pair is
tabu and none would beat the best; the candidate is the first of the best pairs that are not tabu or
would beat the best, and would beat the best itself if any pair would. Everything remembered is
older than the clock, and the frequencies add up to the number of swaps unless one is cut off. Every
swap of an annealed burst is allowed under the tenure drawn for it. -/
theorem improve_disciplined (s : Search α) (start : Permutation) (value : α) (limit : Nat)
    (context : Context L μ ρ) (hKeeps : KeepsSize start.size context.landscape) :
    (∀ w ∈ (s.observeImprove start value limit context).seen, Disciplined start.size w) ∧
    (∀ opened final, s.begin start value context = .ok opened →
      Search.walk limit opened = .ok final → Disciplined start.size final) ∧
    ∀ (alpha : α) (steps : Nat) (temperature : α) (w w' : Walk L α μ ρ),
      w.annealedBurst alpha steps temperature = .ok w' →
        ReflTransGen Walk.AnnealedStep w w' := by
  refine ⟨?_, fun opened final hBegin hWalk => ?_, fun _ _ _ _ _ => Walk.steps_of_annealedBurst⟩
  · have hImprove : Upholds (s.observeImprove start value limit context) (Recalled start.size)
        fun _ => True :=
      Upholds.bind (Upholds.lift fun opened hBegin => recalled_of_begin hKeeps hBegin)
        fun opened hOpened => Upholds.bind (upholds_recalled limit hOpened) fun _ _ =>
          Upholds.pure trivial
    exact fun w hSeen => (hImprove.seen w hSeen).disciplined
  · have hOpened := recalled_of_begin hKeeps hBegin
    rw [← Search.result_observeWalk] at hWalk
    exact ((upholds_recalled limit hOpened).result final hWalk).disciplined

end Search

/-- The walk after six iterations, and what an annealed burst of three steps makes of it. -/
def annealedRun : Except Breach (Walk (Objective ℚ) ℚ (Silent ℚ) Random.SplitMix ×
    Walk (Objective ℚ) ℚ (Silent ℚ) Random.SplitMix) := do
  let opened ← defaultSearch.begin falling 1 risingContext
  let final ← Search.walk 6 opened
  let burst ← final.annealedBurst (1 / 2) 3 1
  return (final, burst)

/-- Nine swaps are remembered after six iterations. The annealed burst makes two more and lets
one step pass. -/
theorem improve_disciplined_rising :
    KeepsSize falling.size risingContext.landscape ∧
    (∀ w ∈ (defaultSearch.observeImprove falling 1 6 risingContext).seen, Disciplined 3 w) ∧
    ∃ opened final burst, defaultSearch.begin falling 1 risingContext = .ok opened ∧
      Search.walk 6 opened = .ok final ∧ Disciplined 3 final ∧
      ((swapPairs 3).map fun pair => final.memory.frequency pair.1 pair.2).sum = 9 ∧
      final.annealedBurst (1 / 2) 3 1 = .ok burst ∧ burst.swaps = 11 ∧ burst.clock = 12 ∧
      ReflTransGen Walk.AnnealedStep final burst := by
  have hKeeps : KeepsSize falling.size risingContext.landscape :=
    (scannable_ofEvaluation fun _ _ => rfl : Scannable 3 risingContext.landscape).keepsSize
  obtain ⟨hSeen, hEnd, hSteps⟩ := improve_disciplined defaultSearch falling 1 6 risingContext hKeeps
  have hRun : annealedRun.toOption.map (fun (final, burst) =>
      (final.swaps, final.trail.length, burst.swaps, burst.clock)) = some (9, 9, 11, 12) := by
    decide +kernel
  obtain ⟨⟨final, burst⟩, hRun, hCounts⟩ := exists_of_toOption_map hRun
  simp only [Prod.mk.injEq] at hCounts
  obtain ⟨hSwaps, hLength, hBurstSwaps, hBurstClock⟩ := hCounts
  obtain ⟨opened, hBegin, hRun⟩ := exists_of_bind_ok hRun
  obtain ⟨last, hWalk, hRun⟩ := exists_of_bind_ok hRun
  obtain ⟨after, hBurst, hRun⟩ := exists_of_bind_ok hRun
  obtain ⟨rfl, rfl⟩ := Prod.mk.inj (Except.ok.inj hRun)
  have hFinal : Disciplined 3 last := hEnd opened last hBegin hWalk
  -- nine swaps cannot cut off a count
  have hUncut : ∀ i j, i < j → j < 3 → last.trail.count (i, j) < Word.halfSize := by
    intro i j _ _
    have hCount : last.trail.count (i, j) ≤ last.trail.length := List.count_le_length
    unfold Word.halfSize
    omega
  exact ⟨hKeeps, hSeen, opened, last, after, hBegin, hWalk, hFinal,
    (hFinal.frequency_sum hUncut).trans hSwaps, hBurst, hBurstSwaps, hBurstClock,
    hSteps _ _ _ _ _ hBurst⟩

end SwapSearch.Tabu
