import SwapSearch.Proofs.Confined
import SwapSearch.Proofs.Tabu.Trail

/-!
# SwapSearch — how a search can fail

A search has one precondition of its own: its start must have the size of the landscape.
Apart from that it fails only where a counter overflows, a table does not fit into memory,
a range cannot be drawn from, or the landscape or the monitor fails. None of this depends
on where the walk is, so there is no invariant to carry but the one of the landscape,
which the scans have to keep among themselves: the first scan of a search gets no hint,
and all the others do.

## Results

* `confined_walk`    — a walk from its first scan to its end.
* `confined_improve` — a search from a start of the right size.
-/

namespace SwapSearch.Tabu

open Confined

variable {L α μ ρ : Type} [Scalar α] [Landscape L α] [Monitor μ α]

/-- The failures `E` include all faults, no charge makes the monitor fail otherwise, and scans with
a hint stay among the landscapes `Good` and do not fail otherwise. -/
structure Tame (L μ : Type) {α : Type} [Landscape L α] [Monitor μ α] (E : Breach → Prop)
    (Good : L → Prop) : Prop where
  fault : ∀ cause, cause.isFault = true → E cause
  charge : ∀ (m : μ) (b : Budget), Confined E (Monitor.onCharge m b) fun _ => True
  scan : ∀ (l : L) (solution : Array Nat) (value : α) (pair : Nat × Nat) (table : GainTable α),
    Good l → Confined E (Landscape.scan l solution value (some pair) table) fun scanned =>
      Good scanned.1

variable {E : Breach → Prop} {Good : L → Prop} {w : Walk L α μ ρ}

/-- The landscape of a walk is good. -/
def Stays (Good : L → Prop) (w : Walk L α μ ρ) : Prop := Good w.context.landscape

omit [Scalar α] [Landscape L α] [Monitor μ α] in
theorem stays_of_ledger_eq {v : Walk L α μ ρ} (h : Stays Good w) (hSame : v.ledger = w.ledger) :
    Stays Good v := by
  have hLandscape : v.context.landscape = w.context.landscape := congrArg Ledger.landscape hSame
  unfold Stays
  rwa [hLandscape]

section Counting

variable (hFault : ∀ cause, cause.isFault = true → E cause)

include hFault

omit [Scalar α] [Landscape L α] [Monitor μ α] in
theorem confined_checked (n : Nat) : Confined E (Word.checked n) fun _ => True := by
  unfold Word.checked
  split
  · exact ok trivial
  · exact fail (hFault _ rfl)

omit [Scalar α] [Landscape L α] [Monitor μ α] in
theorem confined_reserve (count bytes : Nat) :
    Confined E (Word.reserve count bytes) fun _ => True := by
  unfold Word.reserve
  split
  · exact ok trivial
  · exact fail (hFault _ rfl)

omit [Landscape L α] [Monitor μ α] in
theorem confined_allocate (n : Nat) :
    Confined E (GainTable.allocate n : Except Breach (GainTable α)) fun _ => True :=
  (confined_checked hFault _).bind fun _ _ => (confined_reserve hFault _ _).bind fun _ _ =>
    ok trivial

omit [Scalar α] [Landscape L α] [Monitor μ α] in
theorem confined_allocateMemory (n : Nat) : Confined E (Memory.allocate n) fun _ => True :=
  (confined_checked hFault _).bind fun _ _ => (confined_reserve hFault _ _).bind fun _ _ =>
    ok trivial

omit [Landscape L α] [Monitor μ α] in
theorem confined_between [RandomSource ρ] (lo hi : α) (r : ρ) :
    Confined E (Random.between lo hi r) fun _ => True := by
  unfold Random.between
  split
  · exact ok trivial
  · exact fail (hFault _ rfl)

end Counting

-- ---------------------------------------------------------------------------
-- Choosing
-- ---------------------------------------------------------------------------

section Choosing

variable [RandomSource ρ] (hFault : ∀ cause, cause.isFault = true → E cause)

include hFault

omit [Landscape L α] [Monitor μ α] in
theorem confined_drawTenure (h : Stays Good w) :
    Confined E w.drawTenure fun drawn => Stays Good drawn.2 :=
  (confined_between hFault _ _ _).bind fun _ _ => ok h

omit [Landscape L α] [Monitor μ α] in
theorem confined_directedPick (directed : α) (h : Stays Good w) :
    Confined E (w.directedPick directed) fun picked => Stays Good picked.2 := by
  refine (confined_drawTenure hFault h).bind fun drawn hDrawn => ?_
  dsimp only
  split
  · exact ok hDrawn
  · exact ok hDrawn

omit [Landscape L α] [Monitor μ α] in
theorem confined_annealedPick (temperature : α) (h : Stays Good w) :
    Confined E (w.annealedPick temperature) fun picked => Stays Good picked.2 := by
  refine (confined_drawTenure hFault h).bind fun drawn hDrawn => ?_
  dsimp only
  split
  · exact ok hDrawn
  · exact ok (stays_of_ledger_eq hDrawn (Walk.ledger_metropolisPick ..))

omit [Landscape L α] [Monitor μ α] in
theorem confined_settleStrength (jumps : Bool) (h : Stays Good w) :
    Confined E (w.settleStrength jumps) fun settled => Stays Good settled.2 := by
  unfold Walk.settleStrength
  dsimp only
  split
  · exact Confined.bind (Q := fun drawn => Stays Good drawn.2)
      ((confined_between hFault _ _ _).bind fun _ _ => ok h) fun _ hDrawn => ok hDrawn
  · split
    · exact (confined_checked hFault _).bind fun _ _ => ok h
    · exact (confined_checked hFault _).bind fun _ _ => ok h

end Choosing

-- ---------------------------------------------------------------------------
-- Moving
-- ---------------------------------------------------------------------------

omit [Landscape L α] in
theorem stays_stopRequested (h : Stays Good w) : Stays Good w.stopRequested.2 :=
  stays_of_ledger_eq h w.ledger_stopRequested

omit [Landscape L α] in
theorem stays_recordIfBetter (h : Stays Good w) : Stays Good w.recordIfBetter := by
  obtain ⟨best, bestValue, sinceBest, monitor, hRecorded⟩ := w.exists_recordIfBetter
  rw [hRecorded]
  exact h

variable (hTame : Tame L μ E Good)

include hTame

omit [Scalar α] in
/-- A scan that succeeds is charged and reported. -/
theorem confined_refresh {hint : Option (Nat × Nat)}
    (hScan : Confined E (Landscape.scan w.context.landscape w.current.values w.value hint w.gains)
      fun scanned => Good scanned.1) :
    Confined E (w.refresh hint) (Stays Good) := by
  refine hScan.bind fun scanned hScanned => ?_
  refine Confined.bind (Q := fun _ => True)
    ((confined_checked hTame.fault _).bind fun _ _ => ok trivial) fun cost _ => ?_
  exact (hTame.charge _ _).bind fun monitor _ => ok hScanned

theorem confined_exchange (i j : Nat) (h : Stays Good w) :
    Confined E (w.exchange i j) (Stays Good) := by
  refine (confined_checked hTame.fault _).bind fun clock _ => ?_
  refine (confined_checked hTame.fault _).bind fun swaps _ => ?_
  exact confined_refresh hTame (hTame.scan _ _ _ _ _ h)

theorem confined_follow (choice : Option (Nat × Nat)) (h : Stays Good w) :
    Confined E (w.follow choice) (Stays Good) := by
  cases choice with
  | none => exact (confined_checked hTame.fault _).bind fun _ _ => ok h
  | some pair => exact confined_exchange hTame pair.1 pair.2 h

theorem confined_climb (m : Move α) (h : Stays Good w) :
    Confined E (w.climb m) (Stays Good) :=
  (confined_exchange hTame _ _ h).bind fun _ hNext => ok (stays_recordIfBetter hNext)

-- ---------------------------------------------------------------------------
-- Bursts and iterations
-- ---------------------------------------------------------------------------

/-- A burst of either kind fails only as its picks and its swaps do. -/
theorem confined_burstM {cool : α → α}
    {pick : α → Walk L α μ ρ → Except Breach (Option (Nat × Nat) × Walk L α μ ρ)}
    (hPick : ∀ temperature v, Stays Good v →
      Confined E (pick temperature v) fun picked => Stays Good picked.2)
    (steps : Nat) (temperature : α) (h : Stays Good w) :
    Confined E (Walk.burstM pick cool steps temperature w) (Stays Good) := by
  induction steps generalizing w temperature with
  | zero => exact ok h
  | succ steps ih =>
    unfold Walk.burstM
    have hAsked := stays_stopRequested h
    -- what is asked first can end the burst, but it cannot fail
    generalize w.stopRequested = asked at hAsked ⊢
    obtain ⟨stop, v⟩ := asked
    cases stop with
    | true => exact ok hAsked
    | false =>
      refine (hPick temperature v hAsked).bind fun picked hPicked => ?_
      refine (confined_follow hTame picked.1 hPicked).bind fun next hNext => ?_
      split
      · exact ok hNext
      · exact ih _ hNext

variable [RandomSource ρ]

theorem confined_launch (annealed : Bool) (h : Stays Good w) :
    Confined E (w.launch annealed) (Stays Good) := by
  refine (confined_settleStrength hTame.fault _ h).bind fun settled hSettled => ?_
  obtain ⟨jumped, settled⟩ := settled
  -- neither remembering the optimum nor noting the launch touches what is confined
  have hMarked : Stays Good settled.markOptimum :=
    stays_of_ledger_eq hSettled (Walk.ledger_markOptimum _)
  have hLaunched : ∀ bursts, Stays Good { settled.markOptimum with bursts := bursts } :=
    fun _ => hMarked
  cases annealed with
  | true =>
    exact (confined_burstM hTame
      (fun temperature _ => confined_annealedPick hTame.fault temperature) _ _
      (hLaunched _)).bind fun _ hNext => ok (stays_recordIfBetter hNext)
  | false =>
    exact (confined_burstM hTame (fun _ _ => confined_directedPick hTame.fault _)
      _ _ (hLaunched _)).bind fun _ hNext => ok (stays_recordIfBetter hNext)

theorem confined_iterate (h : Stays Good w) :
    Confined E w.iterate fun progress => Stays Good progress.walk := by
  have hCounted : Stays Good { w with iterations := w.iterations + 1 } := h
  unfold Walk.iterate Walk.iterateM
  dsimp only
  split
  · next m _ => exact (confined_climb hTame m hCounted).bind fun _ hNext => ok hNext
  · split
    · exact ok hCounted
    · exact (confined_launch hTame false hCounted).bind fun _ hNext => ok hNext
    · exact (confined_launch hTame true hCounted).bind fun _ hNext => ok hNext

theorem confined_run (limit : Nat) (h : Stays Good w) :
    Confined E (Walk.run limit w) (Stays Good) := by
  induction limit generalizing w with
  | zero => exact ok h
  | succ limit ih =>
    unfold Walk.run Walk.runM
    have hAsked := stays_stopRequested h
    -- a walk that is told to stop returns, so only an iteration can fail
    generalize w.stopRequested = asked at hAsked ⊢
    obtain ⟨stop, v⟩ := asked
    cases stop with
    | true => exact ok hAsked
    | false =>
      refine (confined_iterate hTame hAsked).bind fun progress hProgress => ?_
      cases progress with
      | continued next => exact ih hProgress
      | settled next => exact ok hProgress

-- ---------------------------------------------------------------------------
-- Searches
-- ---------------------------------------------------------------------------

/-- A walk that has not scanned anything yet. Its first scan gets no hint. -/
theorem confined_walk (limit : Nat)
    (hFirst : ∀ table : GainTable α, Confined E
      (Landscape.scan w.context.landscape w.current.values w.value none table) fun scanned =>
        Good scanned.1) :
    Confined E (Search.walk limit w) fun v =>
      v.context.landscape = w.context.landscape ∨ Stays Good v := by
  unfold Search.walk Search.walkM
  split
  · exact ok (Or.inl rfl)
  · have hAsked := w.ledger_stopRequested
    generalize w.stopRequested = asked at hAsked ⊢
    obtain ⟨stop, v⟩ := asked
    -- asking has changed the monitor only, so the first scan is the one that is foreseen
    have hLandscape : v.context.landscape = w.context.landscape :=
      congrArg Ledger.landscape hAsked
    have hCurrent : v.current = w.current := congrArg Ledger.current hAsked
    have hValue : v.value = w.value := congrArg Ledger.value hAsked
    cases stop with
    | true => exact ok (Or.inl hLandscape)
    | false =>
      rw [← hLandscape, ← hCurrent, ← hValue] at hFirst
      refine (confined_refresh hTame (hFirst v.gains)).bind fun next hNext => ?_
      exact (confined_run hTame limit hNext).imp fun _ hEnd => Or.inr hEnd

/-- **A search fails as its parts do.** From a start of the right size it breaks off only with a
fault, or as its landscape or its monitor does. -/
theorem confined_improve {s : Search α} {start : Permutation} {value : α} (limit : Nat)
    {context : Context L μ ρ} (hSize : start.size = Landscape.size context.landscape)
    (hFirst : ∀ table : GainTable α, Confined E
      (Landscape.scan context.landscape start.values value none table) fun scanned =>
        Good scanned.1) :
    Confined E (s.improve start value limit context) fun found =>
      found.2.landscape = context.landscape ∨ Good found.2.landscape := by
  -- the size is right, so a beginning fails only for want of memory
  have hBegin : Confined E (s.begin start value context) fun w =>
      w.context.landscape = context.landscape ∧ w.current = start ∧ w.value = value := by
    unfold Search.begin
    rw [if_neg (not_not_intro hSize)]
    refine (confined_allocate hTame.fault _).bind fun gains _ => ?_
    refine (confined_allocateMemory hTame.fault _).bind fun memory _ => ?_
    exact ok ⟨rfl, rfl, rfl⟩
  refine hBegin.bind fun w hw => ?_
  obtain ⟨hLandscape, hCurrent, hValue⟩ := hw
  rw [← hLandscape, ← hCurrent, ← hValue] at hFirst
  refine (confined_walk hTame limit hFirst).bind fun final hFinal => ?_
  rw [hLandscape] at hFinal
  exact ok hFinal

end SwapSearch.Tabu
