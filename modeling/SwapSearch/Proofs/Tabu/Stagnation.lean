import SwapSearch.Proofs.Scalar.Parts
import SwapSearch.Proofs.Tabu.Itinerary
import SwapSearch.Proofs.Tabu.Success

/-!
# SwapSearch — when a walk jumps

A walk counts its escapes: every launch from an optimum that it has climbed to and has not
just left adds one, a new best starts the count anew, and so does a stagnation jump. The
jump comes when the count is equal to its limit. The test for it is made once before each
launch, and a launch adds one at most, so the count does not get past the limit.

That the count does what it should is said in terms of the history of a walk: its *stages*,
one for every iteration, tell what has been done and whether it has led to a new best.

## Results

* `upholds_contained`       — the count never passes its limit.
* `reckoned_of_passage`     — the count is a function of the stages.
* `launch_of_stagnant`      — a walk at the limit jumps.
* `stagnation_jumps`        — when a walk jumps, and how far.
-/

namespace SwapSearch.Tabu

open Observed

variable {L α μ ρ : Type}

-- ---------------------------------------------------------------------------
-- Stages
-- ---------------------------------------------------------------------------

/-- What one iteration of a walk amounts to, and whether it has led to a new best. -/
structure Stage (α : Type) where
  leg : Leg α
  record : Bool

/-- What a walk has done, without the new bests. -/
def route (stages : List (Stage α)) : List (Leg α) := stages.map Stage.leg

/-- The escapes since the last new best or the last jump. Stages are listed newest first. -/
def escapes (start : Permutation) : List (Stage α) → Nat
  | [] => 0
  | ⟨_, true⟩ :: _ => 0
  | ⟨.climb, false⟩ :: older => escapes start older
  | ⟨.burst launch, false⟩ :: older =>
    if launch.jumped then 0
    else if hasClimbed (route older) ∧ launch.optimum ≠ lastSummit start (route older) then
      escapes start older + 1
    else escapes start older

/-- The stage of the last launch. -/
theorem exists_launch {stages : List (Stage α)} {b : Burst α} {bursts : List (Burst α)}
    (h : launches (route stages) = b :: bursts) :
    ∃ record older, ⟨.burst b, record⟩ :: older <:+ stages ∧ launches (route older) = bursts := by
  induction stages with
  | nil => exact nomatch h
  | cons stage stages ih =>
    obtain ⟨leg, record⟩ := stage
    cases leg with
    | climb =>
      obtain ⟨earlier, older, hSuffix, hBursts⟩ := ih h
      exact ⟨earlier, older, hSuffix.trans (List.suffix_cons ..), hBursts⟩
    | burst launch =>
      obtain ⟨rfl, hBursts⟩ := List.cons.inj h
      exact ⟨record, stages, List.suffix_rfl, hBursts⟩

theorem escapes_record (start : Permutation) (leg : Leg α) (older : List (Stage α)) :
    escapes start (⟨leg, true⟩ :: older) = 0 := by
  cases leg <;> rfl

/-- Climbing changes the count only by a new best. -/
theorem escapes_climbs (start : Permutation) (k : Nat) (older : List (Stage α)) :
    escapes start (List.replicate k ⟨.climb, false⟩ ++ older) = escapes start older := by
  induction k with
  | zero => rfl
  | succ k ih => exact ih

theorem lastStrength_route_climbs (base k : Nat) (older : List (Stage α)) :
    lastStrength base (route (List.replicate k ⟨.climb, false⟩ ++ older)) =
      lastStrength base (route older) := by
  have hRoute : route (List.replicate k (⟨.climb, false⟩ : Stage α) ++ older) =
      List.replicate k .climb ++ route older := by
    unfold route
    rw [List.map_append, List.map_replicate]
  rw [hRoute, lastStrength_climbs]

-- ---------------------------------------------------------------------------
-- What a walk counts
-- ---------------------------------------------------------------------------

/-- The course of a walk, its count of escapes and its best value. -/
structure Gauge (α : Type) where
  course : Course α
  sinceBest : Nat
  bestValue : α

namespace Walk

def gauge (w : Walk L α μ ρ) : Gauge α := ⟨w.course, w.sinceBest, w.bestValue⟩

variable [Scalar α] {w w' : Walk L α μ ρ}

section Gauge

variable [Monitor μ α]

theorem gauge_stopRequested (w : Walk L α μ ρ) : w.stopRequested.2.gauge = w.gauge := by
  obtain ⟨monitor, hAsked⟩ := w.exists_stopRequested
  rw [hAsked]
  rfl

/-- A new best starts the count anew. -/
theorem sinceBest_recordIfBetter (w : Walk L α μ ρ) : w.recordIfBetter.sinceBest =
    if Scalar.beats w.recordIfBetter.value w.bestValue then 0 else w.sinceBest := by
  unfold recordIfBetter isBetter
  split
  · next hBetter => exact (if_pos hBetter).symm
  · rfl

variable [Landscape L α]

omit [Scalar α] in
theorem gauge_of_refresh {hint : Option (Nat × Nat)} (h : w.refresh hint = .ok w') :
    w'.gauge = w.gauge := by
  obtain ⟨landscape, gains, cost, monitor, -, -, -, rfl⟩ := exists_of_refresh h
  rfl

theorem gauge_of_exchange {i j : Nat} (h : w.exchange i j = .ok w') :
    w'.gauge = w.gauge := by
  have hMoved : (w.moved i j).gauge = w.gauge :=
    congrArg (fun n => { w.gauge with course := { w.course with size := n } })
      (Permutation.size_swap ..)
  exact (gauge_of_refresh (refresh_of_exchange h)).trans hMoved

/-- No step of a burst changes the gauge. -/
theorem keptByBursts_gauge (P : Gauge α → Prop) :
    KeptByBursts (fun w : Walk L α μ ρ => P w.gauge) (fun w => P w.gauge)
      (fun w => P w.gauge) where
  ask w h := by
    rw [w.gauge_stopRequested]
    exact ⟨h, fun _ => h⟩
  weaken _ h := h
  draw _ _ h := h
  skip w next h hSkip := by
    rw [exists_of_skip hSkip]
    exact h
  swap _ _ _ _ h _ hExchange := by
    rw [gauge_of_exchange hExchange]
    exact h
  calm _ h _ := h
  relax _ h := h

/-- Climbing only changes the count if it leads to a new best. -/
theorem gauge_of_climb {m : Move α} (h : w.climb m = .ok w') :
    w'.sinceBest = (if Scalar.beats w'.value w.bestValue then 0 else w.sinceBest) ∧
      w'.course = { w.course with climbed := true } := by
  refine ⟨?_, course_of_climb h⟩
  obtain ⟨next, hExchange, h⟩ := exists_of_bind_ok h
  obtain rfl := Except.ok.inj h
  have hNext := gauge_of_exchange hExchange
  have hBest : next.bestValue = w.bestValue := congrArg Gauge.bestValue hNext
  have hSince : next.sinceBest = w.sinceBest := congrArg Gauge.sinceBest hNext
  rw [← hBest, ← hSince]
  exact next.sinceBest_recordIfBetter

end Gauge

-- ---------------------------------------------------------------------------
-- Launching
-- ---------------------------------------------------------------------------

section Launching

variable [RandomSource ρ]

/-- The walk after a stagnation jump by a drawn fraction of its size. -/
def jumped (w : Walk L α μ ρ) (drawn : α × ρ) : Walk L α μ ρ :=
  { w with
    context := { w.context with random := drawn.2 }
    sinceBest := 0
    strength := max w.strength (max (Scalar.toWord (drawn.1 * (w.size : α))) 2) }

/-- At the limit a draw settles the length of a burst, and starts the count anew. -/
theorem settleStrength_of_stagnant (h : w.sinceBest = w.settings.stagnationAfter) :
    w.settleStrength true = Random.between w.settings.minStagnation w.settings.maxStagnation
      w.context.random >>= fun drawn => .ok (true, w.jumped drawn) := by
  unfold settleStrength drawJump
  dsimp only
  rw [h, Bool.true_and, beq_self_eq_true, if_pos rfl]
  cases Random.between w.settings.minStagnation w.settings.maxStagnation w.context.random <;> rfl

variable [Monitor μ α] [Landscape L α]

theorem launch_eq (w : Walk L α μ ρ) : w.launch false = w.settleStrength true >>= fun settled =>
    (settled.2.launching settled.1).runDirected settled.2.strength settled.2.stagnation >>=
      fun next => .ok next.recordIfBetter := by
  unfold launch launchM
  refine congrArg (w.settleStrength true >>= ·) (funext fun settled => ?_)
  obtain ⟨jumped, v⟩ := settled
  obtain ⟨climbed, lastOptimum, hMarked⟩ := v.exists_markOptimum
  dsimp only
  rw [launching, hMarked]
  rfl

/-- **A walk at the limit jumps.** -/
theorem launch_of_stagnant (h : w.sinceBest = w.settings.stagnationAfter) :
    w.launch false = Random.between w.settings.minStagnation w.settings.maxStagnation
      w.context.random >>= fun drawn =>
        ((w.jumped drawn).launching true).runDirected (w.jumped drawn).strength
          (w.jumped drawn).stagnation >>= fun next => .ok next.recordIfBetter := by
  rw [launch_eq, settleStrength_of_stagnant h]
  cases Random.between w.settings.minStagnation w.settings.maxStagnation w.context.random <;> rfl

theorem iterate_of_optimum (hOptimum : w.gains.bestMove.filter (0 < ·.gain) = none)
    (hKind : w.settings.perturbation = .normal) :
    w.iterate = w.counted.launch false >>= fun next => .ok (.continued next) := by
  unfold iterate iterateM counted
  dsimp only
  rw [hOptimum, hKind]
  rfl

omit [Monitor μ α] [Landscape L α] [RandomSource ρ] in
theorem gauge_launching (w : Walk L α μ ρ) (jumped : Bool) : (w.launching jumped).gauge =
    ⟨(w.launching jumped).course, w.sinceBest, w.bestValue⟩ := by
  obtain ⟨climbed, lastOptimum, hMarked⟩ := w.exists_markOptimum
  rw [launching, hMarked]
  rfl

/-- What a launch leaves of the count, if it does not lead to a new best. -/
theorem gauge_of_launch {annealed : Bool} (h : w.launch annealed = .ok w') :
    ∃ jumped settled, w.Settles (!annealed) (jumped, settled) ∧
      w'.course = (settled.launching jumped).course ∧
      w'.sinceBest = if Scalar.beats w'.value w.bestValue then 0 else settled.sinceBest := by
  obtain ⟨jumped, settled, next, hSettles, hBurst, rfl⟩ := exists_of_launch h
  -- a burst leaves the gauge as it was launched with
  have hNext :=
    (keptByBursts_gauge (· = (settled.launching jumped).gauge)).of_burst rfl hBurst
  have hCourse : next.course = _ := congrArg Gauge.course hNext
  rw [gauge_launching] at hNext
  -- the best to compare with is that from before the launch
  have hBest : next.bestValue = w.bestValue := by
    obtain ⟨random, sinceBest, strength, -, hSettled⟩ := hSettles.exists_eq
    have hSame : settled.bestValue = w.bestValue := (congrArg Walk.bestValue hSettled).trans rfl
    exact (congrArg Gauge.bestValue hNext).trans hSame
  have hSince : next.sinceBest = settled.sinceBest := congrArg Gauge.sinceBest hNext
  refine ⟨jumped, settled, hSettles, next.course_recordIfBetter.trans hCourse, ?_⟩
  rw [next.sinceBest_recordIfBetter, hBest, hSince]

end Launching

end Walk

-- ---------------------------------------------------------------------------
-- Below the limit
-- ---------------------------------------------------------------------------

/-- The count has not passed its limit, and at every launch it was a part of it. -/
structure Contained [Scalar α] (s : Settings α) (g : Gauge α) : Prop where
  settings_eq : g.course.settings = s
  sinceBest_le : g.sinceBest ≤ s.stagnationAfter
  ratios : ∀ b ∈ g.course.bursts, 0 ≤ b.ratio ∧ b.ratio ≤ 1

section Contained

variable [Scalar α] {s : Settings α} {w w' : Walk L α μ ρ}

/-- The test comes before the count is raised, and the count is raised by one. -/
theorem Contained.settles [RandomSource ρ] {jumped : Bool} {settled : Walk L α μ ρ}
    (h : Contained s w.gauge) (hSettles : w.Settles true (jumped, settled)) :
    settled.sinceBest ≤ s.stagnationAfter := by
  have hLimit : w.settings = s := h.settings_eq
  have hBelow : w.sinceBest ≤ s.stagnationAfter := h.sinceBest_le
  -- a jump empties the count, an escape raises it from below the limit
  cases hSettles with
  | jumped _ _ _ => exact Nat.zero_le _
  | escaped hCalm _ =>
    rw [hLimit] at hCalm
    exact Nat.lt_of_le_of_ne hBelow fun hSame => hCalm ⟨rfl, hSame⟩
  | lingered _ _ => exact hBelow

theorem Contained.launching [RandomSource ρ] [PartScalar α] {jumped : Bool}
    {settled : Walk L α μ ρ} (h : Contained s w.gauge) (hSome : s.stagnationAfter ≠ 0)
    (hWord : s.stagnationAfter < Word.size) (hSettles : w.Settles true (jumped, settled)) :
    Contained s (settled.launching jumped).gauge := by
  have hSince := h.settles hSettles
  have hCourse := hSettles.course_eq.2.1
  have hSettings : settled.settings = s :=
    (congrArg Course.settings hCourse).trans h.settings_eq
  have hBursts : settled.bursts = w.bursts := congrArg Course.bursts hCourse
  rw [Walk.gauge_launching, Walk.course_launching]
  refine ⟨hSettings, hSince, ?_⟩
  refine List.forall_mem_cons.mpr ⟨?_, hBursts.symm ▸ h.ratios⟩
  show 0 ≤ settled.stagnation ∧ settled.stagnation ≤ 1
  unfold Walk.stagnation
  rw [hSettings]
  exact PartScalar.part_bounds hSince hSome hWord

variable [Monitor μ α]

theorem Contained.recordIfBetter (h : Contained s w.gauge) :
    Contained s w.recordIfBetter.gauge := by
  have hCourse : w.recordIfBetter.gauge.course = w.gauge.course := w.course_recordIfBetter
  refine ⟨hCourse ▸ h.settings_eq, ?_, hCourse ▸ h.ratios⟩
  show w.recordIfBetter.sinceBest ≤ s.stagnationAfter
  rw [w.sinceBest_recordIfBetter]
  split
  · exact Nat.zero_le _
  · exact h.sinceBest_le

variable [Landscape L α]

theorem Contained.upholds_climb (h : Contained s w.gauge) (m : Move α) :
    Upholds (w.observeClimb m) (fun w => Contained s w.gauge) fun next =>
      Contained s next.gauge := by
  refine Upholds.bind (Q := fun next => Contained s next.gauge) ?_ fun next hNext =>
    Upholds.pure { hNext.recordIfBetter with }
  refine Upholds.bind (Upholds.look h) fun _ _ => Upholds.lift fun next hExchange => ?_
  rw [Walk.gauge_of_exchange hExchange]
  exact h

variable [RandomSource ρ] [PartScalar α]

theorem Contained.upholds_launch (h : Contained s w.gauge) (hSome : s.stagnationAfter ≠ 0)
    (hWord : s.stagnationAfter < Word.size) :
    Upholds (w.observeLaunch false) (fun w => Contained s w.gauge) fun next =>
      Contained s next.gauge := by
  refine Upholds.bind (Upholds.lift fun settled hSettle =>
    Walk.settles_of_settleStrength hSettle) fun settled hSettles => ?_
  have hReady := h.launching hSome hWord hSettles
  exact Upholds.bind ((Walk.keptByBursts_gauge (Contained s)).upholds_observeRunDirected _ _
    hReady) fun next hNext => Upholds.pure hNext.recordIfBetter

theorem Contained.upholds_iterate (h : Contained s w.gauge) (hKind : s.perturbation = .normal)
    (hSome : s.stagnationAfter ≠ 0) (hWord : s.stagnationAfter < Word.size) :
    Upholds w.observeIterate (fun w => Contained s w.gauge) fun progress =>
      Contained s progress.walk.gauge := by
  have hCounted : Contained s w.counted.gauge := h
  have hNormal : w.counted.settings.perturbation = .normal :=
    (congrArg Settings.perturbation h.settings_eq).trans hKind
  unfold Walk.observeIterate Walk.iterateM
  refine Upholds.bind (Upholds.look hCounted) fun _ _ => ?_
  -- a climb, or a launch with a step length that the settings allow
  split
  · exact Upholds.bind (hCounted.upholds_climb _) fun next hNext => Upholds.pure hNext
  · split
    · next hOther => exact nomatch hOther.symm.trans hNormal
    · exact Upholds.bind (hCounted.upholds_launch hSome hWord) fun next hNext =>
        Upholds.pure hNext
    · next hOther => exact nomatch hOther.symm.trans hNormal

omit [Monitor μ α] [Landscape L α] [RandomSource ρ] [PartScalar α] in
theorem Search.stagnationAfter_ne_zero (s : Search α) : s.settings.stagnationAfter ≠ 0 := by
  intro hNone
  have hValid := s.valid
  unfold Settings.defect? at hValid
  rw [if_pos hNone] at hValid
  exact nomatch hValid

omit [PartScalar α] [RandomSource ρ] in
theorem contained_of_begin {s : Search α} {start : Permutation} {value : α}
    {context : Context L μ ρ} (h : s.begin start value context = .ok w) :
    Contained s.settings w.gauge := by
  obtain ⟨-, gains, memory, -, -, rfl⟩ := Search.exists_of_begin h
  exact ⟨rfl, Nat.zero_le _, nofun⟩

/-- **The count never passes its limit.** -/
theorem upholds_contained {s : Search α} (hKind : s.settings.perturbation = .normal)
    (hWord : s.settings.stagnationAfter < Word.size) (start : Permutation) (value : α) (limit : Nat)
    (context : Context L μ ρ) :
    Upholds (s.observeImprove start value limit context)
      (fun w => Contained s.settings w.gauge) fun _ => True := by
  have hSome := s.stagnationAfter_ne_zero
  refine Upholds.bind (Upholds.lift fun w hBegin => contained_of_begin hBegin) fun w hw => ?_
  -- asking does not touch the gauge
  have hAsk : ∀ w : Walk L α μ ρ, Contained s.settings w.gauge →
      Contained s.settings w.stopRequested.2.gauge := by
    intro w hw
    rw [w.gauge_stopRequested]
    exact hw
  -- the invariant holds at the first scan and is kept by every iteration
  have hRun : ∀ next, w.stopRequested.2.refresh none = .ok next →
      Upholds (Walk.observeRun limit next) (fun w => Contained s.settings w.gauge) fun w =>
        Contained s.settings w.gauge := by
    intro next hRefresh
    have hNext : Contained s.settings next.gauge := by
      rw [Walk.gauge_of_refresh hRefresh]
      exact hAsk w hw
    exact upholds_observeRun_of_iterate (P := fun w => Contained s.settings w.gauge)
      (Q := fun w => Contained s.settings w.gauge)
      (fun w hw => ⟨hAsk w hw, fun _ => hAsk w hw⟩)
      (fun w hw => hw.upholds_iterate hKind hSome hWord) limit hNext
  exact Upholds.bind (upholds_observeWalk_of_run hw (hAsk w hw) fun _ => hRun)
    fun final _ => Upholds.pure trivial

end Contained

-- ---------------------------------------------------------------------------
-- Stage by stage
-- ---------------------------------------------------------------------------

/-- When a burst is launched after these stages, and what it is launched with. It is a jump if the
count is at its limit, and a jump is at least as long as the burst before. -/
structure Timed (ρ : Type) [RandomSource ρ] [Scalar α] (s : Settings α) (start : Permutation)
    (older : List (Stage α)) (b : Burst α) : Prop where
  jumped_iff : b.jumped = true ↔ escapes start older = s.stagnationAfter
  ratio_eq : b.ratio =
    (escapes start (⟨.burst b, false⟩ :: older) : α) / (s.stagnationAfter : α)
  drawn : b.jumped = true → ∃ (fraction : α) (r r' : ρ),
    Random.between s.minStagnation s.maxStagnation r = .ok (fraction, r') ∧
    b.strength = max (lastStrength (Settings.jumpLength s.jump start.size) (route older))
      (max (Scalar.toWord (fraction * (start.size : α))) 2)

/-- The count is a function of the stages, and so was every launch. -/
structure Reckoned (ρ : Type) [RandomSource ρ] [Scalar α] (s : Settings α) (start : Permutation)
    (stages : List (Stage α)) (g : Gauge α) : Prop extends Contained s g where
  size_eq : g.course.size = start.size
  sinceBest_eq : g.sinceBest = escapes start stages
  timed : ∀ b record older, ⟨.burst b, record⟩ :: older <:+ stages → Timed ρ s start older b

section Reckoned

variable [Scalar α] [RandomSource ρ] {s : Settings α} {start : Permutation}
  {stages : List (Stage α)} {w w' : Walk L α μ ρ}

/-- What a launch counts, given what the walk remembers of its stages. -/
theorem sinceBest_of_settles {jumped : Bool} {settled : Walk L α μ ρ} {b : Burst α}
    (hSettles : w.Settles true (jumped, settled)) (hCount : w.sinceBest = escapes start stages)
    (hClimbed : w.climbed = hasClimbed (route stages))
    (hOptimum : w.lastOptimum = lastSummit start (route stages)) (hJumped : b.jumped = jumped)
    (hHere : b.optimum = w.current) :
    settled.sinceBest = escapes start (⟨.burst b, false⟩ :: stages) := by
  unfold escapes
  rw [hJumped, hHere, ← hCount, ← hClimbed, ← hOptimum]
  cases hSettles with
  | jumped _ _ _ => rfl
  | escaped _ hEscaped =>
    exact (if_pos (c := w.climbed = true ∧ w.current ≠ w.lastOptimum)
      ⟨hEscaped.1, hEscaped.2.symm⟩).symm
  | lingered _ hLingered =>
    exact (if_neg (c := w.climbed = true ∧ w.current ≠ w.lastOptimum)
      fun hBoth => hLingered ⟨hBoth.1, hBoth.2.symm⟩).symm

/-- Every burst is launched when it is due. -/
theorem Reckoned.timed_of_settles (h : Reckoned ρ s start stages w.gauge)
    (hCharted : Charted (Settings.jumpLength s.jump start.size) start (route stages) w.course)
    {jumped : Bool} {settled : Walk L α μ ρ} (hSettles : w.Settles true (jumped, settled)) :
    Timed ρ s start stages ⟨settled.current, settled.strength, jumped, settled.stagnation⟩ := by
  have hLimit : w.settings = s := h.settings_eq
  have hSize : w.size = start.size := h.size_eq
  have hCount : w.sinceBest = escapes start stages := h.sinceBest_eq
  have hStrength : w.strength = lastStrength _ (route stages) := hCharted.strength_eq
  obtain ⟨hHere, hSettled, -⟩ := hSettles.course_eq
  have hSettings : settled.settings = s := (congrArg Course.settings hSettled).trans hLimit
  -- the flag, the ratio, and how a jump is drawn
  refine ⟨?_, ?_, ?_⟩
  · rw [← hCount, ← hLimit]
    cases hSettles with
    | jumped _ hStagnant _ => exact ⟨fun _ => hStagnant, fun _ => rfl⟩
    | escaped hCalm _ => exact ⟨nofun, fun hStagnant => absurd ⟨rfl, hStagnant⟩ hCalm⟩
    | lingered hCalm _ => exact ⟨nofun, fun hStagnant => absurd ⟨rfl, hStagnant⟩ hCalm⟩
  · show (settled.sinceBest : α) / (settled.settings.stagnationAfter : α) = _
    rw [hSettings, sinceBest_of_settles hSettles hCount hCharted.climbed_eq
      hCharted.lastOptimum_eq
      (b := ⟨settled.current, settled.strength, jumped, settled.stagnation⟩) rfl hHere]
  · rintro rfl
    cases hSettles with
    | @jumped fraction random _ _ hDrawn =>
      rw [hLimit] at hDrawn
      rw [← hStrength, ← hSize]
      exact ⟨fraction, w.context.random, random, hDrawn, rfl⟩

/-- One stage more. A new best starts the count anew, whatever the stage has made of it. -/
theorem Reckoned.append {g g' : Gauge α} {leg : Leg α} {record : Bool} {count : Nat}
    (h : Reckoned ρ s start stages g) (hBefore : Contained s { g' with sinceBest := count })
    (hSize : g'.course.size = start.size) (hCount : count = escapes start (⟨leg, false⟩ :: stages))
    (hSince : g'.sinceBest = if record then 0 else count)
    (hTimed : ∀ b, leg = .burst b → Timed ρ s start stages b) :
    Reckoned ρ s start (⟨leg, record⟩ :: stages) g' where
  settings_eq := hBefore.settings_eq
  -- the count before the comparison with the best is contained, and so is zero
  sinceBest_le := by
    rw [hSince]
    split
    · exact Nat.zero_le _
    · exact hBefore.sinceBest_le
  ratios := hBefore.ratios
  size_eq := hSize
  sinceBest_eq := by
    rw [hSince]
    cases record with
    | true => exact (escapes_record ..).symm
    | false => exact hCount
  timed b _ older hSuffix := by
    rcases List.suffix_cons_iff.mp hSuffix with hLast | hOlder
    · obtain ⟨hStage, rfl⟩ := List.cons.inj hLast
      exact hTimed b (Stage.mk.inj hStage).1.symm
    · exact h.timed b _ older hOlder

variable [Monitor μ α] [Landscape L α]

theorem Reckoned.climb (h : Reckoned ρ s start stages w.gauge) {m : Move α}
    (hClimb : w.climb m = .ok w') :
    Reckoned ρ s start (⟨.climb, Scalar.beats w'.value w.bestValue⟩ :: stages) w'.gauge := by
  obtain ⟨hSince, hCourse⟩ := Walk.gauge_of_climb hClimb
  have hSettings : w'.course.settings = s := hCourse ▸ h.settings_eq
  have hSize : w'.course.size = start.size := hCourse ▸ h.size_eq
  have hRatios : ∀ b ∈ w'.course.bursts, 0 ≤ b.ratio ∧ b.ratio ≤ 1 := hCourse ▸ h.ratios
  exact h.append ⟨hSettings, h.sinceBest_le, hRatios⟩ hSize h.sinceBest_eq hSince nofun

variable [PartScalar α]

theorem Reckoned.launch (h : Reckoned ρ s start stages w.gauge)
    (hCharted : Charted (Settings.jumpLength s.jump start.size) start (route stages) w.course)
    (hSome : s.stagnationAfter ≠ 0) (hWord : s.stagnationAfter < Word.size)
    (hLaunch : w.launch false = .ok w') {b : Burst α} (hBurst : w'.bursts = b :: w.bursts) :
    Reckoned ρ s start (⟨.burst b, Scalar.beats w'.value w.bestValue⟩ :: stages) w'.gauge := by
  obtain ⟨jumped, settled, hSettles, hCourse, hSince⟩ := Walk.gauge_of_launch hLaunch
  obtain ⟨hHere, hSettled, -⟩ := hSettles.course_eq
  have hLaunched := Walk.course_launching settled jumped
  obtain ⟨rfl, -⟩ := List.cons.inj (hBurst.symm.trans
    ((congrArg Course.bursts hCourse).trans (congrArg Course.bursts hLaunched)))
  -- settling the length keeps the count within its limit, and the burst leaves the gauge alone
  have hContained := h.toContained.launching hSome hWord hSettles
  have hSettings : w'.course.settings = s := hCourse ▸ hContained.settings_eq
  have hRatios : ∀ b ∈ w'.course.bursts, 0 ≤ b.ratio ∧ b.ratio ≤ 1 := hCourse ▸ hContained.ratios
  have hSize : w'.course.size = start.size := by
    rw [hCourse, hLaunched]
    exact (congrArg Course.size hSettled).trans h.size_eq
  have hCount := sinceBest_of_settles hSettles h.sinceBest_eq hCharted.climbed_eq
    hCharted.lastOptimum_eq
    (b := ⟨settled.current, settled.strength, jumped, settled.stagnation⟩) rfl hHere
  refine h.append ⟨hSettings, h.toContained.settles hSettles, hRatios⟩ hSize hCount hSince ?_
  rintro b hLeg
  obtain rfl := Leg.burst.inj hLeg
  exact h.timed_of_settles hCharted hSettles

end Reckoned

section Passages

variable [Scalar α] [Monitor μ α] [Landscape L α] [RandomSource ρ]

/-- From this start the search has come through these stages, newest first, and this is where it
is. -/
inductive Search.Passage (s : Search α) (start : Permutation) (value : α)
    (context : Context L μ ρ) : List (Stage α) → Walk L α μ ρ → Prop
  | scanned {opened first : Walk L α μ ρ} (hBegin : s.begin start value context = .ok opened)
      (hGo : opened.stopRequested.1 = false)
      (hScan : opened.stopRequested.2.refresh none = .ok first) :
      Passage s start value context [] first
  | climbed {stages : List (Stage α)} {w next : Walk L α μ ρ} {m : Move α}
      (h : Passage s start value context stages w) (hGo : w.stopRequested.1 = false)
      (hMove : w.stopRequested.2.gains.bestMove.filter (0 < ·.gain) = some m)
      (hIterate : w.stopRequested.2.iterate = .ok (.continued next)) :
      Passage s start value context
        (⟨.climb, Scalar.beats next.value w.bestValue⟩ :: stages) next
  | launched {stages : List (Stage α)} {w next : Walk L α μ ρ} {b : Burst α}
      (h : Passage s start value context stages w) (hGo : w.stopRequested.1 = false)
      (hOptimum : w.stopRequested.2.gains.bestMove.filter (0 < ·.gain) = none)
      (hIterate : w.stopRequested.2.iterate = .ok (.continued next))
      (hBurst : next.bursts = b :: w.bursts) :
      Passage s start value context
        (⟨.burst b, Scalar.beats next.value w.bestValue⟩ :: stages) next

variable {s : Search α} {start : Permutation} {value : α} {context rest : Context L μ ρ}
  {stages : List (Stage α)} {legs : List (Leg α)} {w : Walk L α μ ρ} {limit : Nat}
  {outcome : Outcome α}

theorem Search.Passage.journey (h : s.Passage start value context stages w) :
    s.Journey start value context (route stages) w := by
  induction h with
  | scanned hBegin hGo hScan => exact .scanned hBegin hGo hScan
  | climbed _ hGo hMove hIterate ih => exact .climbed ih hGo hMove hIterate
  | launched _ hGo hOptimum hIterate hBurst ih => exact .launched ih hGo hOptimum hIterate hBurst

/-- A burst is launched at an optimum. -/
theorem Search.Passage.exists_optimum {b : Burst α} {record : Bool} {older : List (Stage α)}
    (h : s.Passage start value context stages w)
    (hLaunch : ⟨.burst b, record⟩ :: older <:+ stages) :
    ∃ before, s.Passage start value context older before ∧
      before.stopRequested.2.gains.bestMove.filter (0 < ·.gain) = none := by
  induction h with
  | scanned => exact nomatch List.suffix_nil.mp hLaunch
  | climbed _ _ _ _ ih =>
    rcases List.suffix_cons_iff.mp hLaunch with hLast | hOlder
    · exact nomatch hLast
    · exact ih hOlder
  | launched hBefore _ hOptimum _ _ ih =>
    rcases List.suffix_cons_iff.mp hLaunch with hLast | hOlder
    · obtain ⟨-, rfl⟩ := List.cons.inj hLast
      exact ⟨_, hBefore, hOptimum⟩
    · exact ih hOlder

/-- Every journey has its stages. -/
theorem Search.Journey.exists_passage (h : s.Journey start value context legs w) :
    ∃ stages, route stages = legs ∧ s.Passage start value context stages w := by
  induction h with
  | scanned hBegin hGo hScan => exact ⟨[], rfl, .scanned hBegin hGo hScan⟩
  | climbed _ hGo hMove hIterate ih =>
    obtain ⟨stages, rfl, hPassage⟩ := ih
    exact ⟨_, rfl, .climbed hPassage hGo hMove hIterate⟩
  | launched _ hGo hOptimum hIterate hBurst ih =>
    obtain ⟨stages, rfl, hPassage⟩ := ih
    exact ⟨_, rfl, .launched hPassage hGo hOptimum hIterate hBurst⟩

variable [PartScalar α]

/-- **The count is a function of the stages.** -/
theorem reckoned_of_passage (hKind : s.settings.perturbation = .normal)
    (hWord : s.settings.stagnationAfter < Word.size)
    (h : s.Passage start value context stages w) :
    Reckoned ρ s.settings start stages w.gauge := by
  -- one stage after the other; what the walk remembers of its legs is known besides
  induction h with
  | @scanned opened first hBegin hGo hScan =>
    rw [Walk.gauge_of_refresh hScan, Walk.gauge_stopRequested]
    obtain ⟨-, gains, memory, -, -, rfl⟩ := Search.exists_of_begin hBegin
    refine ⟨⟨rfl, Nat.zero_le _, nofun⟩, rfl, rfl, fun b record older hSuffix => ?_⟩
    exact nomatch List.suffix_nil.mp hSuffix
  | @climbed stages w next m h hGo hMove hIterate ih =>
    -- asking changes neither the gauge nor the best, so the invariant is that of the walk asked
    have hBest : w.stopRequested.2.bestValue = w.bestValue :=
      congrArg Gauge.bestValue w.gauge_stopRequested
    rw [← w.gauge_stopRequested] at ih
    rw [← hBest]
    cases Walk.iterated_of_iterate hIterate with
    | climbed _ _ hClimb => exact Reckoned.climb (w := w.stopRequested.2.counted) ih hClimb
    | launched _ hOptimum _ _ => exact nomatch hOptimum.symm.trans hMove
  | @launched stages w next b h hGo hOptimum hIterate hBurst ih =>
    have hBest : w.stopRequested.2.bestValue = w.bestValue :=
      congrArg Gauge.bestValue w.gauge_stopRequested
    have hBursts : w.stopRequested.2.bursts = w.bursts :=
      congrArg Course.bursts w.course_stopRequested
    have hCharted := charted_of_journey h.journey
    rw [← w.gauge_stopRequested] at ih
    rw [← w.course_stopRequested] at hCharted
    rw [← hBursts] at hBurst
    rw [← hBest]
    cases Walk.iterated_of_iterate hIterate with
    | climbed hMove hGain _ => simp [hMove, hGain] at hOptimum
    | launched annealed _ hLaunched hLaunch =>
      have hSettings : w.stopRequested.2.settings = s.settings := ih.settings_eq
      rw [hSettings, hKind] at hLaunched
      cases annealed with
      | true => exact nomatch hLaunched
      | false =>
        exact Reckoned.launch (w := w.stopRequested.2.counted) ih hCharted
          s.stagnationAfter_ne_zero hWord hLaunch hBurst

/-- A walk over `n` positions jumps from where it is, unless there is no drawing from the range of
the jumps. The count starts anew, and the burst is at least as long as the one before and as the
jump. -/
structure Jumps (s : Settings α) (n previous : Nat) (w : Walk L α μ ρ) : Prop where
  iterate_eq : w.iterate = Random.between s.minStagnation s.maxStagnation w.context.random >>=
    fun drawn => ((w.counted.jumped drawn).launching true).runDirected
      (w.counted.jumped drawn).strength (w.counted.jumped drawn).stagnation >>= fun next =>
        .ok (.continued next.recordIfBetter)
  sinceBest_eq : ∀ drawn, (w.counted.jumped drawn).sinceBest = 0
  longer : ∀ drawn, previous ≤ (w.counted.jumped drawn).strength
  far : ∀ drawn, max 2 (Scalar.toWord (drawn.1 * (n : α))) ≤ (w.counted.jumped drawn).strength
  draws : Drawable s.minStagnation s.maxStagnation → ∃ drawn,
    Random.between s.minStagnation s.maxStagnation w.context.random = .ok drawn

/-- At the limit the next local optimum is left by a jump. -/
theorem jumps_of_passage (hKind : s.settings.perturbation = .normal)
    (hWord : s.settings.stagnationAfter < Word.size)
    (h : s.Passage start value context stages w)
    (hLimit : escapes start stages = s.settings.stagnationAfter)
    (hOptimum : w.stopRequested.2.gains.bestMove.filter (0 < ·.gain) = none) :
    Jumps s.settings start.size
      (lastStrength (Settings.jumpLength s.settings.jump start.size) (route stages))
      w.stopRequested.2 := by
  have hReckoned := reckoned_of_passage hKind hWord h
  have hCharted := charted_of_journey h.journey
  rw [← w.gauge_stopRequested] at hReckoned
  rw [← w.course_stopRequested] at hCharted
  -- what was asked before the iteration plays no part in it
  generalize w.stopRequested.2 = v at hReckoned hCharted hOptimum ⊢
  have hSettings : v.counted.settings = s.settings := hReckoned.settings_eq
  have hSize : v.counted.size = start.size := hReckoned.size_eq
  have hStrength : v.counted.strength = _ := hCharted.strength_eq
  -- the count is the number of escapes, which is at the limit
  have hStagnant : v.counted.sinceBest = v.counted.settings.stagnationAfter := by
    rw [hSettings, ← hLimit]
    exact hReckoned.sinceBest_eq
  refine ⟨?_, fun _ => rfl, fun drawn => ?_, fun drawn => ?_, fun hDrawable => ?_⟩
  · have hNormal : v.settings.perturbation = .normal :=
      (congrArg Settings.perturbation hSettings).trans hKind
    rw [Walk.iterate_of_optimum hOptimum hNormal, Walk.launch_of_stagnant hStagnant, hSettings]
    show (Random.between _ _ v.context.random >>= _) >>= _ = _
    cases Random.between s.settings.minStagnation s.settings.maxStagnation v.context.random with
    | error e => rfl
    | ok drawn =>
      show (Walk.runDirected _ _ _ >>= _) >>= _ = Walk.runDirected _ _ _ >>= _
      cases ((v.counted.jumped drawn).launching true).runDirected
        (v.counted.jumped drawn).strength (v.counted.jumped drawn).stagnation <;> rfl
  · rw [← hStrength]
    exact Nat.le_max_left ..
  · rw [← hSize, Nat.max_comm]
    exact Nat.le_max_right ..
  · obtain ⟨drawn, hDrawn, -⟩ := between_succeeds hDrawable v.context.random
    exact ⟨drawn, hDrawn⟩

/-- **When a walk jumps.** Whatever is seen of a search, its count of escapes has not passed the
limit, and its bursts were launched with ratios from zero to one. The count is a function of the
stages, and a burst is a jump if and only if the count is at its limit. Once it is there, the next
local optimum that is reached without a new best is left by a jump, which starts the count anew and
is at least as long as the burst before, as the drawn fraction of the size, and as two swaps. -/
theorem stagnation_jumps (s : Search α) (start : Permutation) (value : α)
    (context : Context L μ ρ) (hKind : s.settings.perturbation = .normal)
    (hWord : s.settings.stagnationAfter < Word.size) :
    (∀ limit, ∀ w ∈ (s.observeImprove start value limit context).seen,
      Contained s.settings w.gauge) ∧
    (∀ stages w, s.Passage start value context stages w →
      Reckoned ρ s.settings start stages w.gauge ∧ w.bursts = launches (route stages)) ∧
    (∀ k older w,
      s.Passage start value context (List.replicate k ⟨.climb, false⟩ ++ older) w →
      escapes start older = s.settings.stagnationAfter →
      w.stopRequested.2.gains.bestMove.filter (0 < ·.gain) = none →
      Jumps s.settings start.size
        (lastStrength (Settings.jumpLength s.settings.jump start.size) (route older))
        w.stopRequested.2) ∧
    ∀ limit outcome rest, s.improve start value limit context = .ok (outcome, rest) →
      outcome.bursts = [] ∨
        ∃ stages w, s.Passage start value context stages w ∧ outcome.bursts = w.bursts := by
  refine ⟨fun limit => (upholds_contained hKind hWord start value limit context).seen,
    fun stages w h => ⟨reckoned_of_passage hKind hWord h, (charted_of_journey h.journey).bursts_eq⟩,
    fun k older w h hLimit hOptimum => ?_, fun limit outcome rest hReturned => ?_⟩
  · rw [← lastStrength_route_climbs _ k older]
    refine jumps_of_passage hKind hWord h ?_ hOptimum
    rw [escapes_climbs, hLimit]
  · rcases journey_of_improve hReturned with hNone | ⟨legs, last, hJourney, hBursts, -⟩
    · exact Or.inl hNone
    · obtain ⟨stages, -, hPassage⟩ := hJourney.exists_passage
      exact Or.inr ⟨stages, last, hPassage, hBursts⟩

end Passages

/-- Jumps after every escape. -/
def hastySearch : Search ℚ where
  settings := { Settings.default with maxTenure := 0.9, stagnationAfter := 1 }
  valid := by decide +kernel

/-- Seven iterations make five bursts. The fourth is an escape, so at the optimum of the fifth the
count is at its limit, and the fifth is a jump. -/
theorem stagnation_jumps_twin :
    hastySearch.settings.perturbation = .normal ∧
    hastySearch.settings.stagnationAfter < Word.size ∧
    ∃ outcome rest stages w, hastySearch.improve peak 1 7 twinContext = .ok (outcome, rest) ∧
      hastySearch.Passage peak 1 twinContext stages w ∧
      outcome.bursts = launches (route stages) ∧
      outcome.bursts.map (·.jumped) = [true, false, false, false, false] ∧
      Reckoned Random.SplitMix hastySearch.settings peak stages w.gauge ∧
      ∃ fifth record older before, outcome.bursts.head? = some fifth ∧
        ⟨.burst fifth, record⟩ :: older <:+ stages ∧
        hastySearch.Passage peak 1 twinContext older before ∧
        escapes peak older = hastySearch.settings.stagnationAfter ∧
        before.stopRequested.2.gains.bestMove.filter (0 < ·.gain) = none ∧
        Jumps hastySearch.settings peak.size
          (lastStrength (Settings.jumpLength hastySearch.settings.jump peak.size) (route older))
          before.stopRequested.2 := by
  have hKind : hastySearch.settings.perturbation = .normal := by decide +kernel
  have hWord : hastySearch.settings.stagnationAfter < Word.size := by decide +kernel
  have hRun : (hastySearch.improve peak 1 7 twinContext).toOption.map
      (fun returned => returned.1.bursts.map (·.jumped)) =
        some [true, false, false, false, false] := by decide +kernel
  obtain ⟨⟨outcome, rest⟩, hReturned, hJumped⟩ := exists_of_toOption_map hRun
  obtain ⟨fifth, earlier, hFive, hFifth, -⟩ := List.map_eq_cons_iff.mp hJumped
  have hFive : outcome.bursts = fifth :: earlier := hFive
  obtain ⟨-, hPassages, hJumps, hListed⟩ :=
    stagnation_jumps hastySearch peak 1 twinContext hKind hWord
  have hSome : outcome.bursts ≠ [] := by simp [hFive]
  obtain ⟨stages, w, hPassage, hBursts⟩ := (hListed 7 outcome rest hReturned).resolve_left hSome
  obtain ⟨hReckoned, hLaunches⟩ := hPassages stages w hPassage
  obtain ⟨record, older, hSuffix, -⟩ :=
    exists_launch (hLaunches.symm.trans (hBursts.symm.trans hFive))
  -- the fifth burst is a jump, so the count was at its limit where it was launched
  have hLimit := (hReckoned.timed fifth record older hSuffix).jumped_iff.mp hFifth
  obtain ⟨before, hBefore, hOptimum⟩ := hPassage.exists_optimum hSuffix
  exact ⟨hKind, hWord, outcome, rest, stages, w, hReturned, hPassage, hBursts.trans hLaunches,
    hJumped, hReckoned, fifth, record, older, before, congrArg List.head? hFive, hSuffix, hBefore,
    hLimit, hOptimum, hJumps 0 older before hBefore hLimit hOptimum⟩

end SwapSearch.Tabu
