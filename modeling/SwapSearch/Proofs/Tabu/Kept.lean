import SwapSearch.Proofs.Tabu.Trail

/-!
# SwapSearch — what every part of a walk keeps

A walk asks whether to stop, and if it is not told to, it does one thing: it exchanges a
pair or lets the step pass. Then it compares what it has found with the best on record.
So an invariant has three forms. `P` holds whenever the walk asks, `Q` from the moment it
has asked and may go on until it has moved, and `R` from then on until the present
solution has been compared with the best.

`Kept P Q R` lists what has to be shown of the three, one function each. Whatever is kept
in this sense is kept by bursts of either kind, by launches, by iterations and by whole
walks, and it is true of every walk that is looked at on the way. No invariant has to be
carried through the loops by hand. Some things are kept by bursts and changed by
launches; for them there is `KeptByBursts P Q R`.

## Results

* `upholds_observeRun_of_iterate` — from single iterations to all of them.
* `KeptByBursts.of_burst`         — bursts of either kind.
* `Kept.upholds_launch`           — what happens at an optimum.
* `Kept.upholds_iterate`          — one iteration.
* `Kept.upholds_run`              — all of them.
* `exists_of_walk`                — where a search goes from its start.
* `upholds_observeWalk_of_run`    — what is seen on the way.
-/

namespace SwapSearch.Tabu

open Observed

variable {L α μ ρ : Type} [Scalar α] [Landscape L α] [Monitor μ α]

/-- **What every iteration keeps, a walk keeps.** `Q` is what is known of a walk that was not told
to stop. -/
theorem upholds_observeRun_of_iterate [RandomSource ρ] {P Q S : Walk L α μ ρ → Prop}
    (hAsk : ∀ w, P w → P w.stopRequested.2 ∧ (w.stopRequested.1 = false → Q w.stopRequested.2))
    (hIterate : ∀ w, Q w → Upholds w.observeIterate S fun progress => P progress.walk)
    (limit : Nat) {w : Walk L α μ ρ} (hw : P w) : Upholds (Walk.observeRun limit w) S P := by
  induction limit generalizing w with
  | zero => exact Upholds.pure hw
  | succ limit ih =>
    unfold Walk.observeRun Walk.runM
    obtain ⟨hAsked, hGo⟩ := hAsk w hw
    generalize w.stopRequested = asked at hAsked hGo ⊢
    obtain ⟨stop, v⟩ := asked
    cases stop with
    | true => exact Upholds.pure hAsked
    | false =>
      refine Upholds.bind (hIterate v (hGo rfl)) fun progress hProgress => ?_
      cases progress with
      -- only `P` is known of the next walk, but it asks before anything else
      | continued next => exact ih hProgress
      | settled last => exact Upholds.pure hProgress

namespace Walk

/-- A pair of positions, provided that the walk has any and that its gain table fits. Whatever a
walk exchanges is one. -/
def HasPair (w : Walk L α μ ρ) (i j : Nat) : Prop :=
  2 ≤ w.size → w.gains.size = w.size → i < j ∧ j < w.size

omit [Landscape L α] [Monitor μ α] in
theorem hasPair_of_bestMove {w : Walk L α μ ρ} {m : Move α} (h : w.gains.bestMove = some m) :
    w.HasPair m.first m.second := by
  intro _ hTable
  obtain ⟨hij, hj⟩ := GainTable.lt_of_mem_moves (GainTable.mem_moves_of_bestMove h)
  exact ⟨hij, hTable ▸ hj⟩

end Walk

-- ---------------------------------------------------------------------------
-- Bursts
-- ---------------------------------------------------------------------------

/-- What the steps of a burst keep. -/
structure KeptByBursts (P Q R : Walk L α μ ρ → Prop) : Prop where
  ask : ∀ w, P w → P w.stopRequested.2 ∧ (w.stopRequested.1 = false → Q w.stopRequested.2)
  weaken : ∀ w, Q w → P w
  draw : ∀ w random, Q w → Q { w with context := { w.context with random } }
  skip : ∀ w next, Q w → w.skip = .ok next → P next
  swap : ∀ w i j next, Q w → w.HasPair i j → w.exchange i j = .ok next → R next
  /-- What is no new best needs no record. -/
  calm : ∀ w, R w → w.isBetter = false → P w
  relax : ∀ w, P w → R w

namespace KeptByBursts

variable {P Q R : Walk L α μ ρ → Prop} {w w' : Walk L α μ ρ}

/-- What is known of a pick: it has only drawn. -/
def Picked (Q : Walk L α μ ρ → Prop) (picked : Option (Nat × Nat) × Walk L α μ ρ) : Prop :=
  Q picked.2 ∧ ∀ pair ∈ picked.1, picked.2.HasPair pair.1 pair.2

theorem upholds_observeExchange (h : KeptByBursts P Q R) (hw : Q w) {i j : Nat}
    (hPair : w.HasPair i j) : Upholds (w.observeExchange i j) P R :=
  Upholds.bind (Upholds.look (h.weaken w hw)) fun _ _ => Upholds.lift fun next hNext =>
    h.swap w i j next hw hPair hNext

theorem upholds_observeFollow (h : KeptByBursts P Q R) {choice : Option (Nat × Nat)}
    (hPicked : Picked Q (choice, w)) :
    Upholds (w.observeFollow choice) P fun next =>
      R next ∧ ((choice.isSome && next.isBetter) = false → P next) := by
  obtain ⟨hw, hPair⟩ := hPicked
  cases choice with
  | none =>
    refine Upholds.lift fun next hNext => ?_
    have hKept : P next := h.skip w next hw hNext
    exact ⟨h.relax next hKept, fun _ => hKept⟩
  | some pair =>
    have hSwap := h.upholds_observeExchange hw (hPair pair rfl)
    exact ⟨hSwap.seen, fun next hNext =>
      have hMoved := hSwap.result next hNext
      ⟨hMoved, h.calm next hMoved⟩⟩

theorem upholds_burstM (h : KeptByBursts P Q R)
    {pick : α → Walk L α μ ρ → Observed (Walk L α μ ρ) (Option (Nat × Nat) × Walk L α μ ρ)}
    {cool : α → α}
    (hPick : ∀ temperature w, Q w → Upholds (pick temperature w) P (Picked Q))
    (steps : Nat) (temperature : α) (hw : P w) :
    Upholds (Walk.burstM pick cool steps temperature w) P R := by
  -- from step to step only `P` is carried, and asking turns it into `Q` again
  induction steps generalizing temperature w with
  | zero => exact Upholds.pure (h.relax w hw)
  | succ steps ih =>
    unfold Walk.burstM
    obtain ⟨hAsked, hGo⟩ := h.ask w hw
    generalize w.stopRequested = asked at hAsked hGo ⊢
    obtain ⟨stop, v⟩ := asked
    cases stop with
    | true => exact Upholds.pure (h.relax v hAsked)
    | false =>
      refine Upholds.bind (hPick temperature v (hGo rfl)) fun picked hPicked => ?_
      refine Upholds.bind (h.upholds_observeFollow hPicked) fun next hNext => ?_
      -- a burst that ends with a new best has yet to record it, so `R` is all that is left
      cases hEnd : picked.1.isSome && next.isBetter with
      | true => exact Upholds.pure hNext.1
      | false => exact ih (cool temperature) (hNext.2 hEnd)

/-- What only draws and picks a pair of positions. -/
theorem picked_of_drawn (h : KeptByBursts P Q R) (hw : Q w)
    {picked : Option (Nat × Nat) × Walk L α μ ρ}
    (hDrawn : ∃ random, picked.2 = { w with context := { w.context with random } })
    (hLt : 2 ≤ w.size → w.gains.size = w.size → ∀ pair ∈ picked.1,
      pair.1 < pair.2 ∧ pair.2 < w.size) : Picked Q picked := by
  obtain ⟨random, hSame⟩ := hDrawn
  have hSize : picked.2.size = w.size := (congrArg Walk.size hSame).trans rfl
  have hGains : picked.2.gains = w.gains := (congrArg Walk.gains hSame).trans rfl
  refine ⟨hSame ▸ h.draw w random hw, fun pair hPair hTwo hTable => ?_⟩
  rw [hSize] at hTwo ⊢
  rw [hGains, hSize] at hTable
  exact hLt hTwo hTable pair hPair

variable [RandomSource ρ]

theorem of_drawTenure (h : KeptByBursts P Q R) (hw : Q w) {drawn : α × Walk L α μ ρ}
    (hDraw : w.drawTenure = .ok drawn) : Q drawn.2 := by
  obtain ⟨random, hSame⟩ := Walk.exists_of_drawTenure hDraw
  rw [hSame]
  exact h.draw w random hw

theorem upholds_observeDirectedPick (h : KeptByBursts P Q R) (directed : α) (hw : Q w) :
    Upholds (w.observeDirectedPick directed) P (Picked Q) := by
  have hSeen : Upholds (w.observeDirectedPick directed) P fun _ => True := by
    refine Upholds.bind (Upholds.lift fun drawn => h.of_drawTenure hw) fun drawn hDrawn => ?_
    dsimp only
    split
    · exact Upholds.bind (Upholds.look (h.weaken _ (h.draw drawn.2 _ hDrawn))) fun _ _ =>
        Upholds.pure trivial
    · exact Upholds.pure trivial
  refine ⟨hSeen.seen, fun picked hPicked => ?_⟩
  rw [Walk.result_observeDirectedPick] at hPicked
  exact h.picked_of_drawn hw (Walk.exists_of_directedPick hPicked) fun hTwo hTable pair =>
    Walk.lt_of_directedPick hTwo hTable hPicked

theorem upholds_observeAnnealedPick (h : KeptByBursts P Q R) (temperature : α) (hw : Q w) :
    Upholds (w.observeAnnealedPick temperature) P (Picked Q) := by
  have hSeen : Upholds (w.observeAnnealedPick temperature) P fun _ => True := by
    refine Upholds.bind (Upholds.lift fun drawn => h.of_drawTenure hw) fun drawn hDrawn => ?_
    refine Upholds.bind (Upholds.look (h.weaken _ hDrawn)) fun _ _ => ?_
    dsimp only
    split <;> exact Upholds.pure trivial
  refine ⟨hSeen.seen, fun picked hPicked => ?_⟩
  rw [Walk.result_observeAnnealedPick] at hPicked
  exact h.picked_of_drawn hw (Walk.exists_of_annealedPick hPicked) fun _ hTable pair =>
    Walk.lt_of_annealedPick hTable hPicked

theorem upholds_observeRunDirected (h : KeptByBursts P Q R) (strength : Nat) (ratio : α)
    (hw : P w) : Upholds (w.observeRunDirected strength ratio) P R :=
  h.upholds_burstM (fun _ _ => h.upholds_observeDirectedPick _) strength 0 hw

theorem upholds_observeRunAnnealed (h : KeptByBursts P Q R) (strength : Nat) (ratio : α)
    (hw : P w) : Upholds (w.observeRunAnnealed strength ratio) P R :=
  h.upholds_burstM (fun temperature _ => h.upholds_observeAnnealedPick temperature) _ _ hw

/-- A burst of either kind. -/
theorem of_burst (h : KeptByBursts P Q R) {annealed : Bool} {strength : Nat} {ratio : α} (hw : P w)
    (hBurst : (if annealed then w.runAnnealed strength ratio
      else w.runDirected strength ratio) = .ok w') : R w' := by
  cases annealed with
  | true =>
    exact (h.upholds_observeRunAnnealed strength ratio hw).result w'
      ((w.result_observeRunAnnealed strength ratio).trans hBurst)
  | false =>
    exact (h.upholds_observeRunDirected strength ratio hw).result w'
      ((w.result_observeRunDirected strength ratio).trans hBurst)

end KeptByBursts

-- ---------------------------------------------------------------------------
-- Iterations
-- ---------------------------------------------------------------------------

/-- `P`, `Q` and `R` are the forms of an invariant. -/
structure Kept (P Q R : Walk L α μ ρ → Prop) : Prop extends KeptByBursts P Q R where
  record : ∀ w, R w → P w.recordIfBetter
  /-- Settling the length of a burst, remembering the optimum and noting the launch. -/
  prepare : ∀ w random sinceBest strength climbed lastOptimum bursts, P w →
    P { w with
      context := { w.context with random }
      sinceBest, strength, climbed, lastOptimum, bursts }

namespace Kept

variable {P Q R : Walk L α μ ρ → Prop} {w w' : Walk L α μ ρ}

theorem upholds_climb (h : Kept P Q R) {m : Move α} (hw : Q w) (hBest : w.gains.bestMove = some m) :
    Upholds (w.observeClimb m) P P := by
  refine Upholds.bind (h.upholds_observeExchange hw (Walk.hasPair_of_bestMove hBest))
    fun next hNext => Upholds.pure ?_
  exact h.prepare next.recordIfBetter _ _ _ true _ _ (h.record next hNext)

theorem of_climb (h : Kept P Q R) {m : Move α} (hw : Q w) (hBest : w.gains.bestMove = some m)
    (hClimb : w.climb m = .ok w') : P w' :=
  (h.upholds_climb hw hBest).result w' hClimb

variable [RandomSource ρ]

theorem upholds_launch (h : Kept P Q R) (annealed : Bool) (hw : P w) :
    Upholds (w.observeLaunch annealed) P P := by
  refine Upholds.bind (Upholds.lift fun settled hSettle => Walk.exists_of_settleStrength hSettle)
    fun settled hSettled => ?_
  obtain ⟨jumped, v⟩ := settled
  obtain ⟨random, sinceBest, strength, -, hSettled⟩ := hSettled
  obtain ⟨climbed, lastOptimum, hMarked⟩ := v.exists_markOptimum
  -- what happens before the first step of the burst is one preparation
  have hReady : ∀ bursts, P { v.markOptimum with bursts } := by
    intro bursts
    have hSettled : v = _ := hSettled
    rw [hMarked, hSettled]
    exact h.prepare w random sinceBest strength climbed lastOptimum bursts hw
  cases annealed with
  | true =>
    exact Upholds.bind (h.upholds_observeRunAnnealed _ _ (hReady _)) fun next hNext =>
      Upholds.pure (h.record next hNext)
  | false =>
    exact Upholds.bind (h.upholds_observeRunDirected _ _ (hReady _)) fun next hNext =>
      Upholds.pure (h.record next hNext)

theorem of_launch (h : Kept P Q R) {annealed : Bool} (hw : P w)
    (hLaunch : w.launch annealed = .ok w') : P w' :=
  (h.upholds_launch annealed hw).result w' ((w.result_observeLaunch annealed).trans hLaunch)

variable (hCount : ∀ w, Q w → Q { w with iterations := w.iterations + 1 })

include hCount

theorem upholds_iterate (h : Kept P Q R) (hw : Q w) :
    Upholds w.observeIterate P fun progress => P progress.walk := by
  have hCounted : Q w.counted := hCount w hw
  unfold Walk.observeIterate Walk.iterateM
  refine Upholds.bind (Upholds.look (h.weaken _ hCounted)) fun _ _ => ?_
  -- climbing needs `Q`, since it exchanges without asking again; a burst asks first
  split
  · next m hMove =>
    obtain ⟨hBest, -⟩ := Option.filter_eq_some_iff.mp hMove
    exact Upholds.bind (h.upholds_climb hCounted hBest) fun next hNext => Upholds.pure hNext
  · split
    · exact Upholds.pure (h.weaken _ hCounted)
    · exact Upholds.bind (h.upholds_launch false (h.weaken _ hCounted)) fun next hNext =>
        Upholds.pure hNext
    · exact Upholds.bind (h.upholds_launch true (h.weaken _ hCounted)) fun next hNext =>
        Upholds.pure hNext

/-- **What every part of a walk keeps, a walk keeps.** -/
theorem upholds_run (h : Kept P Q R) (limit : Nat) (hw : P w) :
    Upholds (Walk.observeRun limit w) P P :=
  upholds_observeRun_of_iterate h.ask (fun _ hQ => h.upholds_iterate hCount hQ) limit hw

theorem of_run (h : Kept P Q R) {limit : Nat} (hw : P w) (hRun : Walk.run limit w = .ok w') :
    P w' :=
  (h.upholds_run hCount limit hw).result w' ((Walk.result_observeRun limit w).trans hRun)

end Kept

-- ---------------------------------------------------------------------------
-- From the start
-- ---------------------------------------------------------------------------

/-- A walk without neighbours or iterations ends where it begins, one that is told to stop has done
nothing but ask, and any other scans its start and iterates. -/
theorem exists_of_walk [RandomSource ρ] {limit : Nat} {w w' : Walk L α μ ρ}
    (h : Search.walk limit w = .ok w') :
    ((w.size < 2 ∨ limit = 0) ∧ w' = w) ∨
    (2 ≤ w.size ∧ limit ≠ 0 ∧ w.stopRequested.1 = true ∧ w' = w.stopRequested.2) ∨
    (2 ≤ w.size ∧ limit ≠ 0 ∧ w.stopRequested.1 = false ∧
      ∃ next, w.stopRequested.2.refresh none = .ok next ∧ Walk.run limit next = .ok w') := by
  -- no neighbours or no iterations, told to stop, or on with the first scan
  unfold Search.walk Search.walkM at h
  split at h
  · next hIdle =>
    obtain rfl := Except.ok.inj h
    simp only [Bool.or_eq_true, decide_eq_true_eq, beq_iff_eq] at hIdle
    exact Or.inl ⟨hIdle, rfl⟩
  · next hBusy =>
    simp only [Bool.or_eq_true, decide_eq_true_eq, beq_iff_eq, not_or, Nat.not_lt] at hBusy
    obtain ⟨hTwo, hLimit⟩ := hBusy
    generalize w.stopRequested = asked at h ⊢
    obtain ⟨stop, v⟩ := asked
    cases stop with
    | true =>
      obtain rfl := Except.ok.inj h
      exact Or.inr (Or.inl ⟨hTwo, hLimit, rfl, rfl⟩)
    | false =>
      obtain ⟨next, hRefresh, hRun⟩ := exists_of_bind_ok h
      exact Or.inr (Or.inr ⟨hTwo, hLimit, rfl, next, hRefresh, hRun⟩)

/-- What holds of a walk that goes nowhere, and of one that has scanned its start and iterates. -/
theorem upholds_observeWalk_of_run [RandomSource ρ] {S P : Walk L α μ ρ → Prop} {limit : Nat}
    {w : Walk L α μ ρ} (hw : P w) (hAsked : P w.stopRequested.2)
    (hRun : 2 ≤ w.size → ∀ next, w.stopRequested.2.refresh none = .ok next →
      Upholds (Walk.observeRun limit next) S P) :
    Upholds (Search.observeWalk limit w) S P := by
  unfold Search.observeWalk Search.walkM
  split
  · exact Upholds.pure hw
  · next hBusy =>
    have hTwo : 2 ≤ w.size := by
      simp only [Bool.or_eq_true, decide_eq_true_eq, not_or] at hBusy
      omega
    -- the first scan comes after the first question, and nothing is seen before it
    have hRefreshed := hRun hTwo
    generalize w.stopRequested = asked at hAsked hRefreshed ⊢
    obtain ⟨stop, v⟩ := asked
    cases stop with
    | true => exact Upholds.pure hAsked
    | false => exact Upholds.bind (Upholds.lift fun _ hNext => hNext) hRefreshed

end SwapSearch.Tabu
