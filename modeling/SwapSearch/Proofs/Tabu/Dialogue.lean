import SwapSearch.Proofs.Budget
import SwapSearch.Proofs.Tabu.Ending

/-!
# SwapSearch — a search and its monitor

A monitor hears of every charge and of every new best, and it is asked whether the search
should stop. Put on record, newest first, this is all that has passed between the two,
and the monitor a search returns is the one it was given after all of it.

A search charges nothing but scans: one for its start, and one for each swap. It reports
each of them at once, and it has asked right before each of them, with budget left and
with the answer to go on. So if the monitor does not change its mind, nothing is charged
after it has asked to stop; and what is used overdraws the total by less than one scan.

Whether a monitor changes its mind depends on the state it is in: a stopwatch does not as
long as its clock never goes back.

## Results

* `Keeps.resolute`             — when a monitor does not change its mind.
* `Heard.no_notice_after_wish` — a monitor that has asked to stop hears of no charge.
* `kept_talks`                 — every part of a walk keeps the account.
* `improve_scans`              — what a search charges, reports and asks.
-/

namespace SwapSearch

-- ---------------------------------------------------------------------------
-- Events
-- ---------------------------------------------------------------------------

/-- What passes between a search and its monitor. -/
inductive Event (α : Type) where
  /-- The budget has been charged, and this is what it is now. -/
  | charged (budget : Budget)
  | best (value : α)
  /-- The monitor has been asked whether to stop. -/
  | polled (stop : Bool)

/-- The budget that the monitor is shown. -/
def Event.shown? {α : Type} : Event α → Option Budget
  | .charged budget => some budget
  | .best _ | .polled _ => none

/-- The budgets that the monitor was shown, one for each charge it heard of. -/
def notices {α : Type} (events : List (Event α)) : List Budget := events.filterMap Event.shown?

section Heard

variable {μ α : Type} [Monitor μ α] {m m' : μ} {events newer older : List (Event α)}

/-- The monitor `m` has been through the events, newest first, and has become another. -/
inductive Heard (m : μ) : List (Event α) → μ → Prop
  | nothing : Heard m [] m
  | charged {events : List (Event α)} {m' m'' : μ} {budget : Budget} (h : Heard m events m')
      (hCharge : Monitor.onCharge m' budget = .ok m'') :
      Heard m (.charged budget :: events) m''
  | best {events : List (Event α)} {m' : μ} (value : α) (h : Heard m events m') :
      Heard m (.best value :: events) (Monitor.onBest m' value)
  | polled {events : List (Event α)} {m' m'' : μ} {stop : Bool} (h : Heard m events m')
      (hPoll : Monitor.poll m' = (stop, m'')) : Heard m (.polled stop :: events) m''

/-- What is newer was heard by the monitor that had been through what is older. -/
theorem Heard.split (h : Heard m (newer ++ older) m') :
    ∃ between, Heard m older between ∧ Heard between newer m' := by
  -- the newest event comes last, so it is taken off what the later monitor has heard
  induction newer generalizing m' with
  | nil => exact ⟨m', h, .nothing⟩
  | cons event newer ih =>
    cases h with
    | charged h hCharge =>
      obtain ⟨between, hOlder, hNewer⟩ := ih h
      exact ⟨between, hOlder, .charged hNewer hCharge⟩
    | best value h =>
      obtain ⟨between, hOlder, hNewer⟩ := ih h
      exact ⟨between, hOlder, .best value hNewer⟩
    | polled h hPoll =>
      obtain ⟨between, hOlder, hNewer⟩ := ih h
      exact ⟨between, hOlder, .polled hNewer hPoll⟩

/-- Right before it heard of a charge the monitor was asked whether to stop, and let the search go
on. -/
def Cleared (events : List (Event α)) : Prop :=
  ∀ budget older, .charged budget :: older <:+ events → older.head? = some (.polled false)

/-- A monitor that does not change its mind: once it has asked to stop it does so at every poll,
whatever it hears in between. -/
def Resolute (m : μ) : Prop :=
  ∀ (asked m' : μ) (older newer : List (Event α)), Heard m (.polled true :: older) asked →
    Heard asked newer m' → (Monitor.poll m').1 = true

/-- What a monitor keeps whatever it hears. -/
structure Keeps (P : μ → Prop) : Prop where
  charge : ∀ {m m' : μ} {budget : Budget}, P m → Monitor.onCharge m budget = .ok m' → P m'
  best : ∀ {m : μ} (value : α), P m → P (Monitor.onBest m value)
  poll : ∀ {m : μ}, P m → P (Monitor.poll m).2

theorem Heard.keeps {P : μ → Prop} (hKeeps : Keeps P) (h : Heard m events m') (hm : P m) :
    P m' := by
  induction h with
  | nothing => exact hm
  | charged _ hCharge ih => exact hKeeps.charge ih hCharge
  | best value _ ih => exact hKeeps.best value ih
  | polled _ hPoll ih => simpa [hPoll] using hKeeps.poll ih

/-- A monitor is resolute if all that makes it ask to stop is there to stay. -/
theorem Keeps.resolute {P Wish : μ → Prop} (hKeeps : Keeps P) (hWish : Keeps Wish)
    (hAsk : ∀ {m : μ}, P m → (Monitor.poll m).1 = true → Wish m)
    (hStop : ∀ {m : μ}, Wish m → (Monitor.poll m).1 = true) (hm : P m) : Resolute m := by
  intro asked m' older newer hAsked hNewer
  obtain _ | _ | _ | ⟨hOlder, hPoll⟩ := hAsked
  have hWished := hAsk (hOlder.keeps hKeeps hm) (by rw [hPoll])
  -- the poll itself may change the monitor, as a look at the clock does
  have hStill := hWish.poll hWished
  rw [hPoll] at hStill
  exact hStop (hNewer.keeps hWish hStill)

/-- **No charge after the wish to stop.** -/
theorem Heard.no_notice_after_wish (hResolute : Resolute m)
    (h : Heard m (newer ++ .polled true :: older) m')
    (hCleared : Cleared (newer ++ .polled true :: older)) : notices newer = [] := by
  obtain ⟨asked, hWish, hNewer⟩ := h.split
  by_contra hSome
  -- a charge among the newer events has a poll right before it, which let the search go on
  obtain ⟨budget, hShown⟩ := List.exists_mem_of_ne_nil _ hSome
  obtain ⟨event, hEvent, hBudget⟩ := List.mem_filterMap.mp hShown
  cases event with
  | best value => exact nomatch hBudget
  | polled stop => exact nomatch hBudget
  | charged shown =>
    obtain ⟨later, earlier, rfl⟩ := List.append_of_mem hEvent
    have hBefore := hCleared shown (earlier ++ .polled true :: older) (by simp)
    cases earlier with
    | nil => simp at hBefore -- that poll is the wish itself
    | cons event earlier =>
      -- the poll before the charge comes after the wish, so it has to be answered likewise
      obtain rfl : event = .polled false := by simpa using hBefore
      rw [List.append_cons] at hNewer
      obtain ⟨between, hPolled, -⟩ := hNewer.split
      obtain _ | _ | _ | ⟨hEarlier, hAgain⟩ := hPolled
      have hStill := hResolute _ _ _ _ hWish hEarlier
      rw [hAgain] at hStill
      exact nomatch hStill

end Heard

-- ---------------------------------------------------------------------------
-- Scans
-- ---------------------------------------------------------------------------

namespace Budget

/-- The budget after so many scans of the neighbourhood of `n` positions. -/
def afterScans (b : Budget) (n : Nat) : Nat → Budget
  | 0 => b
  | scans + 1 => (b.afterScans n scans).charge (pairCount n)

@[simp] theorem total_afterScans (b : Budget) (n scans : Nat) :
    (b.afterScans n scans).total = b.total := by
  induction scans with
  | zero => rfl
  | succ scans ih => exact ih

/-- Scans add up, until usage stays at the largest word. -/
theorem used_afterScans_succ (b : Budget) (n scans : Nat) :
    (b.afterScans n (scans + 1)).used =
      Word.saturated (b.used + (scans + 1) * pairCount n) := by
  induction scans with
  | zero => simp [afterScans, charge]
  | succ scans ih =>
    show Word.saturated ((b.afterScans n (scans + 1)).used + pairCount n) = _
    rw [ih, saturated_add, Nat.add_assoc, ← Nat.succ_mul]

/-- The last scan overdraws the total by less than its cost. -/
theorem used_afterScans_lt {b : Budget} {n scans : Nat}
    (hOpen : (b.afterScans n scans).isExhausted = false) :
    (b.afterScans n (scans + 1)).used < b.total + pairCount n := by
  have hBelow : ¬ (b.afterScans n scans).total ≤ (b.afterScans n scans).used :=
    of_decide_eq_false hOpen
  rw [total_afterScans] at hBelow
  show Word.saturated ((b.afterScans n scans).used + pairCount n) < _
  unfold Word.saturated
  omega

end Budget

namespace Tabu

variable {L α μ ρ : Type}

/-- What a search has charged, reported and asked when it has made so many scans. -/
structure Accounted (n : Nat) (before : Budget) (scans : Nat) (events : List (Event α))
    (after : Budget) : Prop where
  budget_eq : after = before.afterScans n scans
  notices_eq : notices events =
    (List.range scans).reverse.map fun earlier => before.afterScans n (earlier + 1)
  cleared : Cleared events
  afforded : ∀ earlier < scans, (before.afterScans n earlier).isExhausted = false

namespace Accounted

variable {n scans : Nat} {before after : Budget} {events : List (Event α)}

/-- Nothing has happened yet. -/
theorem opening : Accounted n before 0 ([] : List (Event α)) before where
  budget_eq := rfl
  notices_eq := rfl
  cleared := by simp [Cleared]
  afforded := by simp

/-- What is no charge changes nothing. -/
theorem aside (h : Accounted n before scans events after) {event : Event α}
    (hAside : event.shown? = none) : Accounted n before scans (event :: events) after where
  budget_eq := h.budget_eq
  notices_eq := (List.filterMap_cons_none hAside).trans h.notices_eq
  cleared := by
    intro budget older hSuffix
    rcases List.suffix_cons_iff.mp hSuffix with hAll | hOlder
    · obtain ⟨rfl, -⟩ := List.cons.inj hAll
      exact nomatch hAside
    · exact h.cleared budget older hOlder
  afforded := h.afforded

/-- A scan after asking. -/
theorem charged (h : Accounted n before scans events after)
    (hGo : events.head? = some (.polled false)) (hOpen : after.isExhausted = false) :
    Accounted n before (scans + 1) (.charged (after.charge (Budget.pairCount n)) :: events)
      (after.charge (Budget.pairCount n)) where
  budget_eq := by
    rw [h.budget_eq]
    rfl
  notices_eq := by
    show after.charge (Budget.pairCount n) :: notices events = _
    rw [h.notices_eq, h.budget_eq, List.range_succ, List.reverse_append]
    rfl
  cleared := by
    intro budget older hSuffix
    -- the new charge comes right after the answer to go on
    rcases List.suffix_cons_iff.mp hSuffix with hAll | hOlder
    · rw [(List.cons.inj hAll).2]
      exact hGo
    · exact h.cleared budget older hOlder
  afforded := by
    intro earlier hEarlier
    -- and it is affordable, as the budget has something left
    rcases Nat.lt_succ_iff_lt_or_eq.mp hEarlier with hBefore | rfl
    · exact h.afforded earlier hBefore
    · rw [← h.budget_eq]
      exact hOpen

end Accounted

section Talks

variable [Scalar α] [Monitor μ α] {m₀ : μ} {b₀ : Budget} {n scans : Nat}
  {w w' : Walk L α μ ρ}

/-- What has passed between a walk on `n` positions and its monitor, and the account of its
scans. -/
structure Talks (m₀ : μ) (b₀ : Budget) (n scans : Nat) (events : List (Event α))
    (w : Walk L α μ ρ) : Prop where
  heard : Heard m₀ events w.context.monitor
  account : Accounted n b₀ scans events w.context.budget
  size : w.size = n

/-- The walk has asked, the answer was to go on, and there is budget left. -/
structure MayGoOn (m₀ : μ) (b₀ : Budget) (n scans : Nat) (events : List (Event α))
    (w : Walk L α μ ρ) : Prop extends Talks m₀ b₀ n scans events w where
  answer : events.head? = some (.polled false)
  left : w.context.budget.isExhausted = false

/-- Asking is put on record, unless there is no need to ask. -/
theorem talks_stopRequested (h : ∃ events, Talks m₀ b₀ n scans events w) :
    (∃ events, Talks m₀ b₀ n scans events w.stopRequested.2) ∧
      (w.stopRequested.1 = false → ∃ events, MayGoOn m₀ b₀ n scans events w.stopRequested.2) := by
  obtain ⟨events, hw⟩ := h
  unfold Walk.stopRequested
  -- once the budget is spent the monitor is not asked any more
  split
  · exact ⟨⟨events, hw⟩, nofun⟩
  · next hOpen =>
    have hPolled : Talks m₀ b₀ n scans (.polled (Monitor.poll w.context.monitor).1 :: events)
        { w with context.monitor := (Monitor.poll w.context.monitor).2 } :=
      ⟨hw.heard.polled rfl, hw.account.aside rfl, hw.size⟩
    refine ⟨⟨_, hPolled⟩, fun hGo => ⟨_, hPolled, ?_, Bool.eq_false_iff.mpr hOpen⟩⟩
    rw [(Bool.or_eq_false_iff.mp hGo).1]
    rfl

theorem talks_recordIfBetter (h : ∃ events, Talks m₀ b₀ n scans events w) :
    ∃ events, Talks m₀ b₀ n scans events w.recordIfBetter := by
  obtain ⟨events, hw⟩ := h
  unfold Walk.recordIfBetter
  split
  · exact ⟨_, hw.heard.best w.value, hw.account.aside rfl, hw.size⟩
  · exact ⟨events, hw⟩

variable [Landscape L α]

omit [Scalar α] in
/-- A scan is charged and reported. -/
theorem MayGoOn.refresh {events : List (Event α)} {hint : Option (Nat × Nat)}
    (h : MayGoOn m₀ b₀ n scans events w) (hRefresh : w.refresh hint = .ok w') :
    w'.swaps = w.swaps ∧ ∃ events, Talks m₀ b₀ n (scans + 1) events w' := by
  obtain ⟨landscape, gains, cost, monitor, -, hCost, hCharge, rfl⟩ :=
    Walk.exists_of_refresh hRefresh
  -- the account counts scans of `n` positions, the walk charges one of its own size
  have hUnits : cost = Budget.pairCount n := by
    rw [Budget.eq_of_scanCost hCost, h.size]
  subst hUnits
  exact ⟨rfl, _, h.heard.charged hCharge, h.account.charged h.answer h.left, h.size⟩

/-- **One scan for each swap, and one more.** -/
theorem kept_talks (m₀ : μ) (b₀ : Budget) (n : Nat) :
    Kept (fun w : Walk L α μ ρ => ∃ events, Talks m₀ b₀ n (w.swaps + 1) events w)
      (fun w => ∃ events, MayGoOn m₀ b₀ n (w.swaps + 1) events w)
      (fun w => ∃ events, Talks m₀ b₀ n (w.swaps + 1) events w) where
  ask w h := by
    have hSwaps : w.stopRequested.2.swaps = w.swaps := by
      obtain ⟨monitor, hAsked⟩ := w.exists_stopRequested
      rw [hAsked]
    rw [hSwaps]
    exact talks_stopRequested h
  weaken w h := by
    obtain ⟨events, hw⟩ := h
    exact ⟨events, hw.toTalks⟩
  draw w random h := by
    obtain ⟨events, hw⟩ := h
    exact ⟨events, ⟨hw.heard, hw.account, hw.size⟩, hw.answer, hw.left⟩
  skip w next h hSkip := by
    obtain ⟨events, hw⟩ := h
    obtain rfl := Walk.exists_of_skip hSkip
    exact ⟨events, hw.heard, hw.account, hw.size⟩
  swap w i j next h _ hExchange := by
    obtain ⟨events, hw⟩ := h
    -- the swap is counted before its scan is charged, and no poll comes between the two
    have hMoved : MayGoOn m₀ b₀ n (w.swaps + 1) events (w.moved i j) :=
      ⟨⟨hw.heard, hw.account, (Permutation.size_swap ..).trans hw.size⟩, hw.answer, hw.left⟩
    obtain ⟨hSwaps, hNext⟩ := hMoved.refresh (Walk.refresh_of_exchange hExchange)
    rw [hSwaps]
    exact hNext
  calm _ h _ := h
  relax _ h := h
  record w h := by
    have hSwaps : w.recordIfBetter.swaps = w.swaps := by
      obtain ⟨best, bestValue, sinceBest, monitor, hRecorded⟩ := w.exists_recordIfBetter
      rw [hRecorded]
    rw [hSwaps]
    exact talks_recordIfBetter h
  prepare w random sinceBest strength climbed lastOptimum bursts h := by
    obtain ⟨events, hw⟩ := h
    exact ⟨events, hw.heard, hw.account, hw.size⟩

/-- A walk that scans its start and goes on from there. -/
theorem talks_of_run [RandomSource ρ] {limit : Nat} {next : Walk L α μ ρ}
    (hw : ∃ events, Talks m₀ b₀ n 0 events w) (hNone : w.swaps = 0)
    (hGo : w.stopRequested.1 = false) (hScan : w.stopRequested.2.refresh none = .ok next)
    (hRun : Walk.run limit next = .ok w') : ∃ events, Talks m₀ b₀ n (w'.swaps + 1) events w' := by
  -- the scan of the start is the one more, and from here on scans and swaps keep pace
  obtain ⟨asked, hAsked⟩ := (talks_stopRequested hw).2 hGo
  obtain ⟨hSwaps, hScanned⟩ := hAsked.refresh hScan
  have hStill : next.swaps = 0 := by
    obtain ⟨monitor, hSame⟩ := w.exists_stopRequested
    rw [hSwaps, hSame]
    exact hNone
  have hNext : ∃ events, Talks m₀ b₀ n (next.swaps + 1) events next := hStill ▸ hScanned
  refine (kept_talks m₀ b₀ n).of_run (fun v hv => ?_) hNext hRun
  obtain ⟨events, hv⟩ := hv
  exact ⟨events, ⟨hv.heard, hv.account, hv.size⟩, hv.answer, hv.left⟩

end Talks

-- ---------------------------------------------------------------------------
-- Searches
-- ---------------------------------------------------------------------------

section Searches

variable [Scalar α] [Landscape L α] [Monitor μ α] [RandomSource ρ] {s : Search α}
  {start : Permutation} {value : α} {limit : Nat} {context rest : Context L μ ρ}
  {outcome : Outcome α}

/-- There is nothing to scan or to do, or the search is told to stop before it has begun. -/
def Search.StopsAtOnce (s : Search α) (start : Permutation) (value : α) (limit : Nat)
    (context : Context L μ ρ) : Prop :=
  start.size < 2 ∨ limit = 0 ∨ context.budget.isExhausted = true ∨
    (Monitor.poll (Monitor.onBest context.monitor value)).1 = true ∨
    s.target.any (Scalar.reaches value) = true

omit [Landscape L α] [RandomSource ρ] in
/-- The walk that such a search begins is told to stop, if there is anything to do at all. -/
theorem Search.stopsAtOnce_iff {gains : GainTable α} {memory : Memory} :
    s.StopsAtOnce start value limit context ↔ start.size < 2 ∨ limit = 0 ∨
      (s.opened start value context gains memory).stopRequested.1 = true := by
  rw [Walk.stopRequested_fst, Bool.or_eq_true, Bool.or_eq_true, or_assoc]
  rfl

/-- **What a search charges, reports and asks.** A search that stops at once returns its start, and
nothing is charged or reported. Any other charges one scan for its start and one for each swap, and
reports each of them when it is made; right before, it has asked its monitor and was let go on, and
there was budget left. -/
theorem improve_scans (h : s.improve start value limit context = .ok (outcome, rest)) :
    ∃ events, Heard context.monitor events rest.monitor ∧
      (s.StopsAtOnce start value limit context →
        outcome.solution = start ∧ outcome.value = value ∧ outcome.iterations = 0 ∧
        outcome.swaps = 0 ∧ rest.budget = context.budget ∧ notices events = []) ∧
      (¬ s.StopsAtOnce start value limit context →
        Accounted start.size context.budget (outcome.swaps + 1) events rest.budget ∧
        rest.budget.used = Word.saturated
          (context.budget.used + (outcome.swaps + 1) * Budget.pairCount start.size) ∧
        rest.budget.used < context.budget.total + Budget.pairCount start.size ∧
        outcome.iterations ≤ limit ∧
        (Resolute context.monitor → ∀ newer older, events = newer ++ .polled true :: older →
          notices newer = [])) := by
  obtain ⟨opened, final, hBegin, hWalk, rfl, rfl⟩ := Search.exists_of_improve h
  obtain ⟨hSize, gains, memory, -, -, rfl⟩ := Search.exists_of_begin hBegin
  -- the value of the start is reported before anything is asked
  have hOpened : ∃ events, Talks context.monitor context.budget start.size 0 events
      (s.opened start value context gains memory) :=
    ⟨_, .best value .nothing, Accounted.opening.aside rfl, rfl⟩
  obtain ⟨hIdle, rfl⟩ | ⟨hTwo, hLimit, hStop, rfl⟩ | ⟨hTwo, hLimit, hGo, next, hRefresh, hRun⟩ :=
    exists_of_walk hWalk
  · -- there is nothing to do
    obtain ⟨events, hTalks⟩ := hOpened
    refine ⟨events, hTalks.heard, fun _ => ?_, fun hBusy => ?_⟩
    · exact ⟨rfl, rfl, rfl, rfl, rfl, hTalks.account.notices_eq⟩
    · exact absurd (hIdle.imp_right Or.inl) hBusy
  · -- the search is told to stop before it has begun
    obtain ⟨events, hTalks⟩ := (talks_stopRequested hOpened).1
    refine ⟨events, hTalks.heard, fun _ => ?_, fun hBusy => ?_⟩
    · obtain ⟨monitor, hAsked⟩ := (s.opened start value context gains memory).exists_stopRequested
      rw [hAsked]
      exact ⟨rfl, rfl, rfl, rfl, rfl, hTalks.account.notices_eq⟩
    · exact absurd (Search.stopsAtOnce_iff.mpr (Or.inr (Or.inr hStop))) hBusy
  · -- it begins, and what it has charged is read off the account of its last walk
    obtain ⟨events, hTalks⟩ := talks_of_run hOpened rfl hGo hRefresh hRun
    have hAccount := hTalks.account
    refine ⟨events, hTalks.heard, fun hAtOnce => ?_, fun _ => ⟨hAccount, ?_, ?_, ?_, ?_⟩⟩
    · obtain hOne | hNot | hStop := Search.stopsAtOnce_iff.mp hAtOnce
      · exact absurd hTwo (Nat.not_le.mpr hOne)
      · exact absurd hNot hLimit
      · exact nomatch hGo.symm.trans hStop
    · rw [hAccount.budget_eq]
      exact Budget.used_afterScans_succ ..
    · rw [hAccount.budget_eq]
      exact Budget.used_afterScans_lt (hAccount.afforded _ (Nat.lt_succ_self _))
    · obtain ⟨-, made, hMade, hPlan⟩ := ended_of_walk hTwo (Nat.one_le_iff_ne_zero.mpr hLimit) hWalk
      have hCount : final.iterations = 0 + made := congrArg Plan.iterations hPlan
      show final.iterations ≤ limit
      omega
    · intro hResolute newer older hSplit
      subst hSplit
      exact hTalks.heard.no_notice_after_wish hResolute hAccount.cleared

end Searches

/-- A monitor that asks to stop once it has heard of so many charges. -/
structure Patience (α : Type) where
  left : Nat

instance {α : Type} : Monitor (Patience α) α where
  onCharge m _ := .ok ⟨m.left - 1⟩
  onBest m _ := m
  poll m := (m.left == 0, m)

/-- Lost patience does not come back. -/
theorem resolute_patience {α : Type} (m : Patience α) : Resolute m := by
  have hSpent : Keeps fun m : Patience α => m.left = 0 :=
    { charge := by
        intro m m' _ hNone hCharge
        obtain rfl := Except.ok.inj hCharge
        simp [hNone]
      best := fun _ h => h
      poll := id }
  have hAnything : Keeps fun _ : Patience α => True :=
    { charge := fun _ _ => trivial, best := fun _ _ => trivial, poll := fun _ => trivial }
  exact hAnything.resolute hSpent (fun _ hPoll => beq_iff_eq.mp hPoll) beq_iff_eq.mpr trivial

/-- The time does not run backwards, so it stays up. -/
theorem resolute_stopwatch {α : Type} {m : Stopwatch α} (hClock : m.clock.Monotone) :
    Resolute m := by
  have hOnward : Keeps fun m : Stopwatch α => m.clock.Monotone :=
    { charge := by
        intro m m' _ h hCharge
        obtain rfl := Except.ok.inj hCharge
        exact h
      best := fun _ h => h
      poll := id }
  have hUp : Keeps fun m : Stopwatch α =>
      ∀ look, m.clock.looks ≤ look → m.limit ≤ m.clock.reading look - m.start :=
    { charge := by
        intro m m' _ h hCharge
        obtain rfl := Except.ok.inj hCharge
        exact h
      best := fun _ h => h
      poll := fun h look hLook => h look (Nat.le_of_succ_le hLook) }
  refine hOnward.resolute hUp (fun hOn hPoll look hLook => ?_) (fun h => ?_) hClock
  · exact (of_decide_eq_true hPoll).trans (Nat.sub_le_sub_right (hOn _ _ hLook) _)
  · exact decide_eq_true (h _ (Nat.le_refl _))

def patientContext : Context (Objective ℚ) (Patience ℚ) Random.SplitMix where
  landscape := risingContext.landscape
  budget := Budget.grant 100
  monitor := ⟨3⟩
  random := ⟨7⟩

/-- The monitor lets the search make two swaps, so there are three scans of three pairs. -/
theorem improve_scans_patient :
    ∃ outcome rest, defaultSearch.improve falling 1 6 patientContext = .ok (outcome, rest) ∧
      ¬ defaultSearch.StopsAtOnce falling 1 6 patientContext ∧ Resolute patientContext.monitor ∧
      outcome.swaps = 2 ∧ rest.budget.used = 9 ∧
      ∃ events, Heard patientContext.monitor events rest.monitor ∧
        Accounted 3 patientContext.budget 3 events rest.budget ∧
        ∀ newer older, events = newer ++ .polled true :: older → notices newer = [] := by
  have hRun : (defaultSearch.improve falling 1 6 patientContext).toOption.map
      (fun returned => returned.1.swaps) = some 2 := by decide +kernel
  obtain ⟨⟨outcome, rest⟩, hReturned, hSwaps⟩ := exists_of_toOption_map hRun
  have hBusy : ¬ defaultSearch.StopsAtOnce falling 1 6 patientContext := by
    unfold Search.StopsAtOnce
    decide +kernel
  obtain ⟨events, hHeard, -, hScans⟩ := improve_scans hReturned
  obtain ⟨hAccount, hUsed, -, -, hSilent⟩ := hScans hBusy
  dsimp only at hSwaps
  rw [hSwaps] at hAccount hUsed
  have hResolute := resolute_patience patientContext.monitor
  exact ⟨outcome, rest, hReturned, hBusy, hResolute, hSwaps, hUsed, events, hHeard, hAccount,
    hSilent hResolute⟩

end Tabu

end SwapSearch
