import SwapSearch.Proofs.Tabu.Ending

/-!
# SwapSearch — the length of a burst

A search that perturbs goes in legs: it makes one climb after the other, and where no
exchange gains it launches a burst. What decides about the length of a burst can be read
off the legs before it.

The length starts at the base length, is to grow by one while the walk keeps falling back
to the same optimum and to be reset at another one. But a walk remembers an optimum only
if it has climbed to it, and resets the length only if it has climbed since the last
launch. A burst may end right at a local optimum, though, from which the next one is
launched without a climb. That one grows by one, whether the walk is back at the optimum
before or has found another; and the optimum it starts from is not remembered, so when
the walk climbs back to it, the length is reset.

Only between optima that the walk has climbed to does the length follow the rule.

## Results

* `charted_of_journey`    — what a walk remembers of its legs.
* `Search.Journey.unique` — a journey is determined by the number of its legs.
* `journey_of_improve`    — a search that returns has made the legs it lists.
* `improve_strengths`     — the length of a burst, given the legs before it.
* `strengths_off_summits` — it need not tell whether the optimum is the one before.
-/

namespace SwapSearch.Tabu

variable {L α μ ρ : Type}

-- ---------------------------------------------------------------------------
-- Legs
-- ---------------------------------------------------------------------------

/-- What one iteration of a walk amounts to. -/
inductive Leg (α : Type) where
  | climb
  | burst (launch : Burst α)

def Leg.launch? : Leg α → Option (Burst α)
  | .climb => none
  | .burst launch => some launch

/-- The bursts among the legs. -/
def launches (legs : List (Leg α)) : List (Burst α) := legs.filterMap Leg.launch?

@[simp] theorem launches_nil : launches ([] : List (Leg α)) = [] := rfl

@[simp] theorem launches_climb (older : List (Leg α)) :
    launches (.climb :: older) = launches older := rfl

@[simp] theorem launches_burst (launch : Burst α) (older : List (Leg α)) :
    launches (.burst launch :: older) = launch :: launches older := rfl

/-- The last leg was a climb. A walk that has just begun counts as having climbed to its start. -/
def hasClimbed : List (Leg α) → Bool
  | [] => true
  | .climb :: _ => true
  | .burst _ :: _ => false

/-- The last optimum with a launch that the walk had climbed to; before the first one, the start. -/
def lastSummit (start : Permutation) : List (Leg α) → Permutation
  | [] => start
  | .climb :: older => lastSummit start older
  | .burst launch :: older =>
    if hasClimbed older then launch.optimum else lastSummit start older

/-- The length of the last burst; before the first one, the base length. -/
def lastStrength (base : Nat) : List (Leg α) → Nat
  | [] => base
  | .climb :: older => lastStrength base older
  | .burst launch :: _ => launch.strength

/-- The length of a burst at an optimum, if no stagnation jump draws it. -/
def nextStrength (base : Nat) (start : Permutation) (older : List (Leg α))
    (optimum : Permutation) : Nat :=
  if hasClimbed older ∧ optimum ≠ lastSummit start older then base else lastStrength base older + 1

section Climbs

variable (start : Permutation) (base k : Nat) (launch : Burst α) (older : List (Leg α))

@[simp] theorem lastSummit_climbs :
    lastSummit start (List.replicate k .climb ++ older) = lastSummit start older := by
  induction k with
  | zero => rfl
  | succ k ih => exact ih

@[simp] theorem lastStrength_climbs :
    lastStrength base (List.replicate k .climb ++ older) = lastStrength base older := by
  induction k with
  | zero => rfl
  | succ k ih => exact ih

@[simp] theorem hasClimbed_climbs :
    hasClimbed (List.replicate k .climb ++ .burst launch :: older) = true ↔ k ≠ 0 := by
  cases k with
  | zero => simp [hasClimbed]
  | succ k => simp [hasClimbed, List.replicate_succ]

/-- The length after a launch and `k` climbs. -/
theorem nextStrength_climbs (optimum : Permutation) :
    nextStrength base start (List.replicate k .climb ++ .burst launch :: older) optimum =
      if k = 0 ∨ optimum = lastSummit start (.burst launch :: older) then launch.strength + 1
      else base := by
  unfold nextStrength
  by_cases hNone : k = 0
  · simp [hNone, hasClimbed, lastStrength]
  · by_cases hSame : optimum = lastSummit start (.burst launch :: older)
    · simp [hSame, lastStrength]
    · simp [hNone, hSame]

end Climbs

-- ---------------------------------------------------------------------------
-- The course of a walk
-- ---------------------------------------------------------------------------

/-- What a walk needs to know to launch its next burst. -/
structure Course (α : Type) where
  settings : Settings α
  size : Nat
  strength : Nat
  climbed : Bool
  lastOptimum : Permutation
  bursts : List (Burst α)

namespace Walk

def course (w : Walk L α μ ρ) : Course α where
  settings := w.settings
  size := w.size
  strength := w.strength
  climbed := w.climbed
  lastOptimum := w.lastOptimum
  bursts := w.bursts

variable [Scalar α] {w w' : Walk L α μ ρ}

/-- What settles the length of a burst changes nothing else of the course. -/
theorem Settles.course_eq [RandomSource ρ] {jumps jumped : Bool} {settled : Walk L α μ ρ}
    (h : w.Settles jumps (jumped, settled)) :
    settled.current = w.current ∧ settled.course = { w.course with strength := settled.strength } ∧
    (jumped = false → settled.strength =
      if w.climbed = true ∧ w.current ≠ w.lastOptimum then w.baseStrength else w.strength + 1) := by
  cases h with
  | jumped _ _ _ => exact ⟨rfl, rfl, nofun⟩
  | escaped _ hEscaped => exact ⟨rfl, rfl, fun _ => (if_pos ⟨hEscaped.1, hEscaped.2.symm⟩).symm⟩
  | lingered _ hLingered =>
    exact ⟨rfl, rfl, fun _ => (if_neg fun h => hLingered ⟨h.1, h.2.symm⟩).symm⟩

/-- The optimum is remembered if the walk has climbed to it. -/
theorem course_launching (w : Walk L α μ ρ) (jumped : Bool) :
    (w.launching jumped).course =
      { w.course with
        climbed := false
        lastOptimum := if w.climbed then w.current else w.lastOptimum
        bursts := ⟨w.current, w.strength, jumped, w.stagnation⟩ :: w.bursts } := by
  unfold launching markOptimum
  cases hClimbed : w.climbed with
  | true => rfl
  | false => simp [course, hClimbed, size, stagnation]

variable [Monitor μ α]

theorem course_stopRequested (w : Walk L α μ ρ) : w.stopRequested.2.course = w.course := by
  obtain ⟨monitor, hAsked⟩ := w.exists_stopRequested
  rw [hAsked]
  rfl

theorem course_recordIfBetter (w : Walk L α μ ρ) : w.recordIfBetter.course = w.course := by
  obtain ⟨best, bestValue, sinceBest, monitor, hRecorded⟩ := w.exists_recordIfBetter
  rw [hRecorded]
  rfl

variable [Landscape L α]

omit [Scalar α] in
theorem course_of_refresh {hint : Option (Nat × Nat)} (h : w.refresh hint = .ok w') :
    w'.course = w.course := by
  obtain ⟨landscape, gains, cost, monitor, -, -, -, rfl⟩ := exists_of_refresh h
  rfl

theorem course_of_exchange {i j : Nat} (h : w.exchange i j = .ok w') : w'.course = w.course := by
  have hSize : (w.moved i j).size = w.size := Permutation.size_swap ..
  have hMoved : (w.moved i j).course = w.course :=
    congrArg (fun n => { w.course with size := n }) hSize
  exact (course_of_refresh (refresh_of_exchange h)).trans hMoved

/-- No step of a burst changes the course. -/
theorem keptByBursts_course (c : Course α) :
    KeptByBursts (fun w : Walk L α μ ρ => w.course = c) (fun w => w.course = c)
      (fun w => w.course = c) where
  ask w h := ⟨w.course_stopRequested.trans h, fun _ => w.course_stopRequested.trans h⟩
  weaken _ h := h
  draw _ _ h := h
  skip w next h hSkip := by
    rw [exists_of_skip hSkip]
    exact h
  swap _ _ _ _ h _ hExchange := (course_of_exchange hExchange).trans h
  calm _ h _ := h
  relax _ h := h

theorem course_of_climb {m : Move α} (h : w.climb m = .ok w') :
    w'.course = { w.course with climbed := true } := by
  obtain ⟨next, hExchange, h⟩ := exists_of_bind_ok h
  obtain rfl := Except.ok.inj h
  have hNext : next.recordIfBetter.course = w.course :=
    next.course_recordIfBetter.trans (course_of_exchange hExchange)
  exact congrArg (fun c : Course α => { c with climbed := true }) hNext

/-- A launch settles the length, and the rest is as it was. -/
theorem course_of_launch [RandomSource ρ] {annealed : Bool} (h : w.launch annealed = .ok w') :
    ∃ jumped settled, w.Settles (!annealed) (jumped, settled) ∧
      w'.course = (settled.launching jumped).course := by
  obtain ⟨jumped, settled, next, hSettles, hBurst, rfl⟩ := exists_of_launch h
  refine ⟨jumped, settled, hSettles, next.course_recordIfBetter.trans ?_⟩
  exact (keptByBursts_course (settled.launching jumped).course).of_burst rfl hBurst

end Walk

-- ---------------------------------------------------------------------------
-- Journeys
-- ---------------------------------------------------------------------------

/-- What a walk remembers of its legs, and how long its bursts were. -/
structure Charted [Scalar α] (base : Nat) (start : Permutation) (legs : List (Leg α))
    (c : Course α) : Prop where
  base_eq : Settings.jumpLength c.settings.jump c.size = base
  strength_eq : c.strength = lastStrength base legs
  climbed_eq : c.climbed = hasClimbed legs
  lastOptimum_eq : c.lastOptimum = lastSummit start legs
  bursts_eq : c.bursts = launches legs
  measured : ∀ b older, .burst b :: older <:+ legs → b.jumped = false →
    b.strength = nextStrength base start older b.optimum

section Charted

variable [Scalar α] [Monitor μ α] [Landscape L α] {base : Nat} {start : Permutation}
  {legs : List (Leg α)} {w w' : Walk L α μ ρ}

theorem Charted.climb (h : Charted base start legs w.course) {m : Move α}
    (hClimb : w.climb m = .ok w') : Charted base start (.climb :: legs) w'.course := by
  rw [Walk.course_of_climb hClimb]
  refine ⟨h.base_eq, h.strength_eq, rfl, h.lastOptimum_eq, h.bursts_eq, fun b older hSuffix => ?_⟩
  rcases List.suffix_cons_iff.mp hSuffix with hHere | hOlder
  · exact nomatch hHere
  · exact h.measured b older hOlder

theorem Charted.launch [RandomSource ρ] (h : Charted base start legs w.course) {annealed : Bool}
    (hLaunch : w.launch annealed = .ok w') {b : Burst α} (hBurst : w'.bursts = b :: w.bursts) :
    Charted base start (.burst b :: legs) w'.course := by
  obtain ⟨jumped, settled, hSettles, hCourse⟩ := Walk.course_of_launch hLaunch
  obtain ⟨hHere, hSettled, hStrength⟩ := hSettles.course_eq
  have hClimbed : settled.climbed = hasClimbed legs :=
    (congrArg Course.climbed hSettled).trans h.climbed_eq
  have hOptimum : settled.lastOptimum = lastSummit start legs :=
    (congrArg Course.lastOptimum hSettled).trans h.lastOptimum_eq
  -- the burst on the list is the launch that has been made
  rw [Walk.course_launching] at hCourse
  obtain ⟨rfl, -⟩ := List.cons.inj (hBurst.symm.trans (congrArg Course.bursts hCourse))
  rw [hCourse, hSettled]
  refine ⟨h.base_eq, rfl, rfl, ?_, ?_, fun b older hSuffix hCalm => ?_⟩
  · show (if settled.climbed then settled.current else settled.lastOptimum) = _
    rw [hClimbed, hOptimum]
    rfl
  · show _ :: settled.bursts = _ :: launches legs
    rw [← h.bursts_eq, ← congrArg Course.bursts hSettled]
    rfl
  · -- the last burst is measured by what the walk remembers, the older ones were measured before
    rcases List.suffix_cons_iff.mp hSuffix with hLast | hOlder
    · obtain ⟨hBurst, rfl⟩ := List.cons.inj hLast
      obtain rfl := Leg.burst.inj hBurst
      have hBase : w.baseStrength = base := h.base_eq
      have hLength : w.strength = lastStrength base older := h.strength_eq
      have hFlag : w.climbed = hasClimbed older := h.climbed_eq
      have hSummit : w.lastOptimum = lastSummit start older := h.lastOptimum_eq
      show settled.strength = nextStrength base start older settled.current
      rw [hStrength hCalm, hHere, hBase, hLength, hFlag, hSummit]
      rfl
    · exact h.measured b older hOlder hCalm

end Charted

section Journeys

variable [Scalar α] [Monitor μ α] [Landscape L α] [RandomSource ρ]

/-- From this start the search has made these legs, newest first, and this is where it is. -/
inductive Search.Journey (s : Search α) (start : Permutation) (value : α)
    (context : Context L μ ρ) : List (Leg α) → Walk L α μ ρ → Prop
  | scanned {opened first : Walk L α μ ρ} (hBegin : s.begin start value context = .ok opened)
      (hGo : opened.stopRequested.1 = false)
      (hScan : opened.stopRequested.2.refresh none = .ok first) :
      Journey s start value context [] first
  | climbed {legs : List (Leg α)} {w next : Walk L α μ ρ} {m : Move α}
      (h : Journey s start value context legs w) (hGo : w.stopRequested.1 = false)
      (hMove : w.stopRequested.2.gains.bestMove.filter (0 < ·.gain) = some m)
      (hIterate : w.stopRequested.2.iterate = .ok (.continued next)) :
      Journey s start value context (.climb :: legs) next
  | launched {legs : List (Leg α)} {w next : Walk L α μ ρ} {b : Burst α}
      (h : Journey s start value context legs w) (hGo : w.stopRequested.1 = false)
      (hOptimum : w.stopRequested.2.gains.bestMove.filter (0 < ·.gain) = none)
      (hIterate : w.stopRequested.2.iterate = .ok (.continued next))
      (hBurst : next.bursts = b :: w.bursts) :
      Journey s start value context (.burst b :: legs) next

variable {s : Search α} {start : Permutation} {value : α} {context rest : Context L μ ρ}
  {legs : List (Leg α)} {w w' : Walk L α μ ρ} {limit : Nat} {outcome : Outcome α}

/-- **What a walk remembers of its legs.** -/
theorem charted_of_journey (h : s.Journey start value context legs w) :
    Charted (Settings.jumpLength s.settings.jump start.size) start legs w.course := by
  -- one leg after the other; that an iteration climbs or launches is known from its leg
  induction h with
  | @scanned opened first hBegin hGo hScan =>
    rw [Walk.course_of_refresh hScan, Walk.course_stopRequested]
    obtain ⟨-, gains, memory, -, -, rfl⟩ := Search.exists_of_begin hBegin
    refine ⟨rfl, rfl, rfl, rfl, rfl, fun b older hSuffix => ?_⟩
    exact nomatch List.suffix_nil.mp hSuffix
  | @climbed legs w next m h hGo hMove hIterate ih =>
    rw [← Walk.course_stopRequested] at ih
    cases Walk.iterated_of_iterate hIterate with
    | climbed _ _ hClimb => exact Charted.climb (w := w.stopRequested.2.counted) ih hClimb
    | launched _ hOptimum _ _ => exact nomatch hOptimum.symm.trans hMove
  | @launched legs w next b h hGo hOptimum hIterate hBurst ih =>
    have hBursts : w.stopRequested.2.bursts = w.bursts :=
      congrArg Course.bursts w.course_stopRequested
    rw [← Walk.course_stopRequested] at ih
    rw [← hBursts] at hBurst
    cases Walk.iterated_of_iterate hIterate with
    | climbed hMove hGain _ => simp [hMove, hGain] at hOptimum
    | launched _ _ _ hLaunch =>
      exact Charted.launch (w := w.stopRequested.2.counted) ih hLaunch hBurst

/-- An iteration that goes on adds a leg. -/
theorem Search.Journey.iterate (h : s.Journey start value context legs w)
    (hGo : w.stopRequested.1 = false)
    (hIterate : w.stopRequested.2.iterate = .ok (.continued w')) :
    ∃ leg, s.Journey start value context (leg :: legs) w' := by
  -- the leg is what the iteration has done
  cases Walk.iterated_of_iterate hIterate with
  | @climbed m _ hMove hGain _ =>
    exact ⟨.climb, .climbed h hGo (m := m) (by simp [hMove, hGain]) hIterate⟩
  | launched _ hOptimum _ hLaunch =>
    obtain ⟨jumped, settled, hSettles, hCourse⟩ := Walk.course_of_launch hLaunch
    have hAsked : settled.bursts = w.bursts :=
      (congrArg Course.bursts hSettles.course_eq.2.1).trans
        (congrArg Course.bursts w.course_stopRequested)
    rw [Walk.course_launching] at hCourse
    have hBursts : w'.bursts = _ := congrArg Course.bursts hCourse
    rw [hAsked] at hBursts
    exact ⟨.burst _, .launched h hGo hOptimum hIterate hBursts⟩

/-- Every leg is one iteration. -/
theorem Search.Journey.iterations_eq (h : s.Journey start value context legs w) :
    w.iterations = legs.length := by
  have hNext {v next : Walk L α μ ρ}
      (hIterate : v.stopRequested.2.iterate = .ok (.continued next)) :
      next.iterations = v.iterations + 1 := by
    have hPlan := (Walk.plan_of_iterate hIterate).1
    rw [v.plan_stopRequested] at hPlan
    exact congrArg Plan.iterations hPlan
  induction h with
  | @scanned opened first hBegin _ hScan =>
    have hPlan := (Walk.plan_of_refresh hScan).trans opened.plan_stopRequested
    obtain ⟨-, gains, memory, -, -, rfl⟩ := Search.exists_of_begin hBegin
    exact congrArg Plan.iterations hPlan
  | climbed _ _ _ hIterate ih => rw [hNext hIterate, ih, List.length_cons]
  | launched _ _ _ hIterate _ ih => rw [hNext hIterate, ih, List.length_cons]

/-- A journey is determined by the number of its legs. -/
theorem Search.Journey.unique {legs' : List (Leg α)} (h : s.Journey start value context legs w)
    (h' : s.Journey start value context legs' w') (hLength : legs.length = legs'.length) :
    legs = legs' ∧ w = w' := by
  induction h generalizing legs' w' with
  | scanned hBegin _ hScan =>
    cases h' with
    | scanned hBegin' _ hScan' =>
      obtain rfl := Except.ok.inj (hBegin.symm.trans hBegin')
      exact ⟨rfl, Except.ok.inj (hScan.symm.trans hScan')⟩
    | climbed => exact nomatch hLength
    | launched => exact nomatch hLength
  | climbed _ _ hMove hIterate ih =>
    cases h' with
    | scanned => exact nomatch hLength
    | climbed h' _ _ hIterate' =>
      obtain ⟨rfl, rfl⟩ := ih h' (Nat.succ.inj hLength)
      cases hIterate.symm.trans hIterate'
      exact ⟨rfl, rfl⟩
    | launched h' _ hOptimum _ _ =>
      -- the same walk cannot both gain and be at an optimum
      obtain ⟨rfl, rfl⟩ := ih h' (Nat.succ.inj hLength)
      exact nomatch hMove.symm.trans hOptimum
  | launched _ _ hOptimum hIterate hBurst ih =>
    cases h' with
    | scanned => exact nomatch hLength
    | climbed h' _ hMove _ =>
      obtain ⟨rfl, rfl⟩ := ih h' (Nat.succ.inj hLength)
      exact nomatch hMove.symm.trans hOptimum
    | launched h' _ _ hIterate' hBurst' =>
      obtain ⟨rfl, rfl⟩ := ih h' (Nat.succ.inj hLength)
      cases hIterate.symm.trans hIterate'
      obtain ⟨rfl, -⟩ := List.cons.inj (hBurst.symm.trans hBurst')
      exact ⟨rfl, rfl⟩

/-- A longer journey begins with a shorter one. -/
theorem Search.Journey.suffix {legs' : List (Leg α)} (h : s.Journey start value context legs w)
    (h' : s.Journey start value context legs' w') (hLength : legs.length ≤ legs'.length) :
    legs <:+ legs' := by
  induction h' with
  | scanned =>
    obtain rfl := List.length_eq_zero_iff.mp (Nat.le_zero.mp hLength)
    exact List.suffix_rfl
  | @climbed _ _ _ _ hOlder hGo hMove hIterate ih =>
    rcases Nat.lt_or_eq_of_le hLength with hShorter | hSame
    · exact (ih (Nat.le_of_lt_succ hShorter)).trans (List.suffix_cons ..)
    · rw [(h.unique (hOlder.climbed hGo hMove hIterate) hSame).1]
  | @launched _ _ _ _ hOlder hGo hOptimum hIterate hBurst ih =>
    rcases Nat.lt_or_eq_of_le hLength with hShorter | hSame
    · exact (ih (Nat.le_of_lt_succ hShorter)).trans (List.suffix_cons ..)
    · rw [(h.unique (hOlder.launched hGo hOptimum hIterate hBurst) hSame).1]

/-- A walk goes on until its journey ends. Its last iteration adds no leg if it is at an optimum and
does not perturb. -/
theorem journey_of_run (h : s.Journey start value context legs w)
    (hRun : Walk.run limit w = .ok w') :
    ∃ legs last, s.Journey start value context legs last ∧ w'.bursts = last.bursts ∧
      (w'.iterations = last.iterations ∨ w'.settings.perturbation = .disabled) := by
  induction limit generalizing legs w with
  | zero =>
    obtain rfl := Except.ok.inj hRun
    exact ⟨legs, w, h, rfl, Or.inl rfl⟩
  | succ limit ih =>
    have hBursts : w.stopRequested.2.bursts = w.bursts :=
      congrArg Course.bursts w.course_stopRequested
    have hIterations : w.stopRequested.2.iterations = w.iterations :=
      congrArg Plan.iterations w.plan_stopRequested
    -- the walk is about to be generalized, so its next leg is put down first
    have hStep : ∀ next, w.stopRequested.1 = false →
        w.stopRequested.2.iterate = .ok (.continued next) →
        ∃ leg, s.Journey start value context (leg :: legs) next :=
      fun next hGo hIterate => h.iterate hGo hIterate
    unfold Walk.run Walk.runM at hRun
    generalize w.stopRequested = asked at hRun hBursts hIterations hStep
    obtain ⟨stop, v⟩ := asked
    cases stop with
    | true =>
      obtain rfl := Except.ok.inj hRun
      exact ⟨legs, w, h, hBursts, Or.inl hIterations⟩
    | false =>
      obtain ⟨progress, hIterate, hRun⟩ := exists_of_bind_ok hRun
      cases progress with
      | continued next =>
        obtain ⟨leg, hNext⟩ := hStep next rfl hIterate
        exact ih hNext hRun
      | settled last =>
        obtain rfl := Except.ok.inj hRun
        cases Walk.iterated_of_iterate hIterate with
        | settled _ hKind => exact ⟨legs, w, h, hBursts, Or.inr hKind⟩

theorem journey_of_improve (h : s.improve start value limit context = .ok (outcome, rest)) :
    outcome.bursts = [] ∨
      ∃ legs last, s.Journey start value context legs last ∧ outcome.bursts = last.bursts ∧
        (s.settings.perturbation ≠ .disabled → outcome.iterations = legs.length) := by
  obtain ⟨opened, final, hBegin, hWalk, rfl, rfl⟩ := Search.exists_of_improve h
  obtain ⟨hNone, hSettings⟩ : opened.bursts = [] ∧ opened.settings = s.settings := by
    obtain ⟨-, gains, memory, -, -, rfl⟩ := Search.exists_of_begin hBegin
    exact ⟨rfl, rfl⟩
  -- a walk that goes nowhere launches nothing
  obtain ⟨-, rfl⟩ | ⟨-, -, -, rfl⟩ | ⟨hTwo, hLimit, hGo, first, hScan, hRun⟩ := exists_of_walk hWalk
  · exact Or.inl hNone
  · exact Or.inl ((congrArg Course.bursts opened.course_stopRequested).trans hNone)
  · obtain ⟨legs, last, hJourney, hBursts, hCount⟩ :=
      journey_of_run (.scanned hBegin hGo hScan) hRun
    refine Or.inr ⟨legs, last, hJourney, hBursts, fun hKind => ?_⟩
    obtain ⟨-, made, -, hPlan⟩ := ended_of_walk hTwo (Nat.one_le_iff_ne_zero.mpr hLimit) hWalk
    have hSame : final.settings = opened.settings := congrArg Plan.settings hPlan
    rcases hCount with hAll | hDisabled
    · exact hAll.trans hJourney.iterations_eq
    · rw [hSame, hSettings] at hDisabled
      exact absurd hDisabled hKind

/-- **How long a burst is.** The bursts of a search are the launches among its legs. Take two of
them in a row, with `k` climbs in between, and let no stagnation jump draw the length of the later
one. If the walk has not climbed, the burst is longer by one than the one before. If it has climbed,
this is so at the last optimum it had climbed to before, and anywhere else the burst has the base
length. So the optimum of the earlier burst counts if the walk had climbed to it. -/
theorem improve_strengths (s : Search α) (start : Permutation) (value : α)
    (context : Context L μ ρ) :
    (∀ legs w, s.Journey start value context legs w → w.bursts = launches legs ∧
      ∀ b' b k older, .burst b' :: (List.replicate k .climb ++ .burst b :: older) <:+ legs →
        b'.jumped = false →
        (k = 0 → b'.strength = b.strength + 1) ∧
        (k ≠ 0 → b'.strength = if b'.optimum = lastSummit start (.burst b :: older) then
          b.strength + 1 else Settings.jumpLength s.settings.jump start.size) ∧
        (k ≠ 0 → hasClimbed older = true → b'.strength = if b'.optimum = b.optimum then
          b.strength + 1 else Settings.jumpLength s.settings.jump start.size)) ∧
    ∀ limit outcome rest, s.improve start value limit context = .ok (outcome, rest) →
      outcome.bursts = [] ∨
        ∃ legs w, s.Journey start value context legs w ∧ outcome.bursts = launches legs := by
  refine ⟨fun legs w hJourney => ?_, fun limit outcome rest hReturned => ?_⟩
  · have hCharted := charted_of_journey hJourney
    refine ⟨hCharted.bursts_eq, fun b' b k older hSuffix hCalm => ?_⟩
    have hStrength := hCharted.measured b' _ hSuffix hCalm
    -- whatever the walk has remembered, it has done so in the legs up to the earlier burst
    rw [nextStrength_climbs] at hStrength
    refine ⟨fun hNone => ?_, fun hSome => ?_, fun hSome hClimbed => ?_⟩
    · rw [hStrength, if_pos (Or.inl hNone)]
    · simpa [hSome] using hStrength
    · have hSummit : lastSummit start (.burst b :: older) = b.optimum := if_pos hClimbed
      simpa [hSome, hSummit] using hStrength
  · rcases journey_of_improve hReturned with hNone | ⟨legs, last, hJourney, hBursts, -⟩
    · exact Or.inl hNone
    · exact Or.inr ⟨legs, last, hJourney, hBursts.trans (charted_of_journey hJourney).bursts_eq⟩

end Journeys

/-- Two solutions out of six are better than the others. -/
def twinPeaks (values : Array Nat) : ℚ := if values = #[0, 2, 1] ∨ values = #[1, 0, 2] then 1 else 0

def twinContext : Context (Objective ℚ) (Silent ℚ) Random.SplitMix where
  landscape := Objective.ofEvaluation 3 fun values => .ok (twinPeaks values)
  budget := Budget.grant 1000
  monitor := {}
  random := ⟨7⟩

def peak : Permutation := ⟨#[0, 2, 1], by decide, by decide⟩

def otherPeak : Permutation := ⟨#[1, 0, 2], by decide, by decide⟩

def steadySearch : Search ℚ where
  settings := { Settings.default with maxTenure := 0.9 }
  valid := by decide +kernel

/-- What is put on record about a launch, its ratio apart. -/
def Burst.mark {α : Type} (b : Burst α) : Permutation × Nat × Bool :=
  (b.optimum, b.strength, b.jumped)

/-- Six iterations make four bursts, newest first. The walk climbs back to its start before the
second, and back to the other peak before the last. The third burst is launched right where the
second has ended. -/
theorem exists_bursts_twin :
    ∃ outcome rest, steadySearch.improve peak 1 6 twinContext = .ok (outcome, rest) ∧
      ∃ fourth third second first, outcome.bursts = [fourth, third, second, first] ∧
        fourth.mark = (otherPeak, 2, false) ∧ third.mark = (otherPeak, 5, false) ∧
        second.mark = (peak, 4, false) ∧ first.mark = (peak, 3, false) := by
  have hRun : (steadySearch.improve peak 1 6 twinContext).toOption.map
      (fun returned => returned.1.bursts.map Burst.mark) = some
        [(otherPeak, 2, false), (otherPeak, 5, false), (peak, 4, false), (peak, 3, false)] := by
    decide +kernel
  obtain ⟨⟨outcome, rest⟩, hReturned, hMarks⟩ := exists_of_toOption_map hRun
  obtain ⟨fourth, bursts, hBursts, hFourth, hMarks⟩ := List.map_eq_cons_iff.mp hMarks
  obtain ⟨third, bursts, rfl, hThird, hMarks⟩ := List.map_eq_cons_iff.mp hMarks
  obtain ⟨second, bursts, rfl, hSecond, hMarks⟩ := List.map_eq_cons_iff.mp hMarks
  obtain ⟨first, bursts, rfl, hFirst, hMarks⟩ := List.map_eq_cons_iff.mp hMarks
  obtain rfl := List.map_eq_nil_iff.mp hMarks
  exact ⟨outcome, rest, hReturned, fourth, third, second, first, hBursts, hFourth, hThird, hSecond,
    hFirst⟩

/-- The legs of this search, up to a limit. -/
theorem exists_legs_twin (limit : Nat) (newest : Permutation × Nat × Bool)
    (older : List (Permutation × Nat × Bool))
    (hRun : (steadySearch.improve peak 1 limit twinContext).toOption.map (fun returned =>
      (returned.1.iterations, returned.1.bursts.map Burst.mark)) = some (limit, newest :: older)) :
    ∃ legs w, steadySearch.Journey peak 1 twinContext legs w ∧ legs.length = limit ∧
      (launches legs).map Burst.mark = newest :: older := by
  have hKind : steadySearch.settings.perturbation ≠ .disabled := by decide +kernel
  obtain ⟨⟨outcome, rest⟩, hReturned, hMarks⟩ := exists_of_toOption_map hRun
  obtain ⟨hCount, hMarks⟩ := Prod.mk.inj hMarks
  rcases journey_of_improve hReturned with hNone | ⟨legs, w, hJourney, hBursts, hLength⟩
  · simp [hNone] at hMarks
  · have hLaunches : w.bursts = launches legs := (charted_of_journey hJourney).bursts_eq
    refine ⟨legs, w, hJourney, (hLength hKind).symm.trans hCount, ?_⟩
    rw [← hLaunches, ← hBursts]
    exact hMarks

/-- Its first four legs: there is one climb between the first burst and the second, and none between
the second and the third. -/
theorem journey_twin : ∃ w third second first,
    steadySearch.Journey peak 1 twinContext
      [.burst third, .burst second, .climb, .burst first] w ∧
    third.mark = (otherPeak, 5, false) ∧ second.mark = (peak, 4, false) ∧
    first.mark = (peak, 3, false) := by
  obtain ⟨legs, afterOne, hOne, hLength, hMarks⟩ :=
    exists_legs_twin 1 (peak, 3, false) [] (by decide +kernel)
  obtain ⟨leg, rfl⟩ := List.length_eq_one_iff.mp hLength
  obtain ⟨first, rfl⟩ : ∃ first, leg = .burst first := by
    cases leg with
    | climb => exact nomatch hMarks
    | burst first => exact ⟨first, rfl⟩
  -- two iterations make no more bursts than one, so the second leg is a climb
  obtain ⟨legs, afterTwo, hTwo, hLength, hMarks⟩ :=
    exists_legs_twin 2 (peak, 3, false) [] (by decide +kernel)
  obtain ⟨newer, rfl⟩ := hOne.suffix hTwo (by simp [hLength])
  have hNewer : newer.length = 1 := by simpa using hLength
  obtain ⟨leg, rfl⟩ := List.length_eq_one_iff.mp hNewer
  obtain rfl : leg = .climb := by
    cases leg with
    | climb => rfl
    | burst second => simp at hMarks
  obtain ⟨legs, w, hFour, hLength, hMarks⟩ :=
    exists_legs_twin 4 (otherPeak, 5, false) [(peak, 4, false), (peak, 3, false)]
      (by decide +kernel)
  obtain ⟨newer, rfl⟩ := hTwo.suffix hFour (by simp [hLength])
  have hNewer : newer.length = 2 := by simpa using hLength
  obtain ⟨last, next, rfl⟩ := List.length_eq_two.mp hNewer
  cases last with
  | climb => cases next <;> simp at hMarks
  | burst third =>
    cases next with
    | climb => simp at hMarks
    | burst second =>
      obtain ⟨hThird, hSecond, hFirst⟩ : third.mark = (otherPeak, 5, false) ∧
          second.mark = (peak, 4, false) ∧ first.mark = (peak, 3, false) := by
        simpa using hMarks
      exact ⟨w, third, second, first, hFour, hThird, hSecond, hFirst⟩

/-- The rule applies to the first three bursts. The walk has climbed once when it launches the
second, from the same peak as the first, and it has not climbed when it launches the third. -/
theorem improve_strengths_twin : ∃ w third second first,
    steadySearch.Journey peak 1 twinContext
      [.burst third, .burst second, .climb, .burst first] w ∧
    third.jumped = false ∧ third.strength = 5 ∧ third.strength = second.strength + 1 ∧
    second.jumped = false ∧ second.strength = 4 ∧ second.optimum = first.optimum ∧
    hasClimbed ([] : List (Leg ℚ)) = true ∧
    (second.strength = if second.optimum = lastSummit peak [.burst first] then
      first.strength + 1 else Settings.jumpLength steadySearch.settings.jump peak.size) ∧
    second.strength = if second.optimum = first.optimum then
      first.strength + 1 else Settings.jumpLength steadySearch.settings.jump peak.size := by
  obtain ⟨w, third, second, first, hJourney, hThird, hSecond, hFirst⟩ := journey_twin
  obtain ⟨-, hRule⟩ := (improve_strengths steadySearch peak 1 twinContext).1 _ w hJourney
  have hThirdCalm : third.jumped = false := congrArg (·.2.2) hThird
  have hSecondCalm : second.jumped = false := congrArg (·.2.2) hSecond
  have hSame : second.optimum = first.optimum :=
    (congrArg (·.1) hSecond).trans (congrArg (·.1) hFirst).symm
  obtain ⟨hNoClimb, -, -⟩ := hRule third second 0 [.climb, .burst first] List.suffix_rfl hThirdCalm
  obtain ⟨-, hSummit, hClimbed⟩ := hRule second first 1 [] (List.suffix_cons ..) hSecondCalm
  exact ⟨w, third, second, first, hJourney, hThirdCalm, congrArg (·.2.1) hThird, hNoClimb rfl,
    hSecondCalm, congrArg (·.2.1) hSecond, hSame, rfl, hSummit Nat.one_ne_zero,
    hClimbed Nat.one_ne_zero rfl⟩

/-- The third burst starts from another peak than the second and is longer by one, though the base
length is two. The fourth starts from the same peak as the third and has the base length. -/
theorem strengths_off_summits :
    steadySearch.settings.perturbation = .normal ∧
    Settings.jumpLength steadySearch.settings.jump peak.size = 2 ∧
    ∃ outcome rest, steadySearch.improve peak 1 6 twinContext = .ok (outcome, rest) ∧
      ∃ fourth third second first, outcome.bursts = [fourth, third, second, first] ∧
        (third.jumped = false ∧ third.optimum ≠ second.optimum ∧ third.strength ≠ 2) ∧
        (fourth.jumped = false ∧ fourth.optimum = third.optimum ∧
          fourth.strength ≠ third.strength + 1) := by
  obtain ⟨outcome, rest, hReturned, fourth, third, second, first, hBursts, hFourth, hThird, hSecond,
    -⟩ := exists_bursts_twin
  obtain ⟨hFourthAt, hFourthLength, hFourthCalm⟩ :
      fourth.optimum = otherPeak ∧ fourth.strength = 2 ∧ fourth.jumped = false := by
    simpa [Burst.mark] using hFourth
  obtain ⟨hThirdAt, hThirdLength, hThirdCalm⟩ :
      third.optimum = otherPeak ∧ third.strength = 5 ∧ third.jumped = false := by
    simpa [Burst.mark] using hThird
  have hSecondAt : second.optimum = peak := congrArg (·.1) hSecond
  refine ⟨by decide +kernel, by decide +kernel, outcome, rest, hReturned, fourth, third, second,
    first, hBursts, ⟨hThirdCalm, ?_, by omega⟩, hFourthCalm, hFourthAt.trans hThirdAt.symm,
    by omega⟩
  rw [hThirdAt, hSecondAt]
  decide

end SwapSearch.Tabu
