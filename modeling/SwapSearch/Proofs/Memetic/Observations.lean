import SwapSearch.Proofs.Memetic.Recorder

/-!
# SwapSearch — what a recorder keeps of its observations

A recorder remembers one threshold. The rule it follows looks at the whole record: an
observation is *news* if its value is finite, a period has passed, and the record holds no
observation of the same block. Both agree as long as usage does not decrease and the
thresholds are words, however many blocks are crossed at once and however long the value is
not finite.

So every block but the first yields its first observation with a finite value, if it has
one.

## Results

* `Recorder.Regular.due_iff`      — the threshold is reached in the blocks not yet recorded.
* `Recorder.Regular.observe_news` — one observation follows the rule.
* `filter_news`                   — what the rule keeps of one block.
* `Recorder.observeAll_news`      — a sequence of observations follows the rule.
-/

namespace SwapSearch.Memetic

variable {α : Type} [Scalar α] {s used k : Nat} {best : α} {x : Snapshot α}
  {observed recorded : List (Snapshot α)}

-- ---------------------------------------------------------------------------
-- The rule
-- ---------------------------------------------------------------------------

/-- The observation has a finite value and is the first of its block to be recorded. -/
def IsNews (s : Nat) (recorded : List (Snapshot α)) (x : Snapshot α) : Prop :=
  Scalar.isFinite x.bestValue = true ∧ s ≤ x.evaluations ∧
    ∀ y ∈ recorded, y.evaluations / s ≠ x.evaluations / s

instance : Decidable (IsNews s recorded x) := inferInstanceAs (Decidable (_ ∧ _ ∧ _))

/-- The observations that are news when they are made. -/
def news (s : Nat) (observed : List (Snapshot α)) : List (Snapshot α) :=
  observed.foldl (fun recorded x => if IsNews s recorded x then recorded ++ [x] else recorded) []

theorem news_concat (s : Nat) (observed : List (Snapshot α)) (x : Snapshot α) :
    news s (observed ++ [x]) =
      if IsNews s (news s observed) x then news s observed ++ [x] else news s observed := by
  unfold news
  rw [List.foldl_append]
  rfl

/-- A finite value is news once for each block. -/
theorem isNews_iff (recorded : List (Snapshot α)) (hFinite : Scalar.isFinite x.bestValue = true)
    (hPassed : s ≤ x.evaluations) :
    IsNews s recorded x ↔
      recorded.filter (fun y => y.evaluations / s = x.evaluations / s) = [] := by
  simp [IsNews, hFinite, hPassed]

/-- **The first of each block** that has a finite value is what the rule keeps of it. -/
theorem filter_news (hLater : 1 ≤ k) (observed : List (Snapshot α)) :
    (news s observed).filter (fun x => x.evaluations / s = k) =
      (observed.find? fun x => Scalar.isFinite x.bestValue && x.evaluations / s = k).toList := by
  -- from the right: what is news depends on what has been kept before
  induction observed using List.reverseRecOn with
  | nil => rfl
  | append_singleton observed x ih =>
    rw [news_concat, List.find?_append]
    by_cases hMatch : Scalar.isFinite x.bestValue = true ∧ x.evaluations / s = k
    · obtain ⟨hFinite, rfl⟩ := hMatch
      have hPassed : s ≤ x.evaluations := (Nat.div_pos_iff.mp hLater).2
      -- an observation of this block is news exactly if none of the block was kept
      have hRecorded := isNews_iff (news s observed) hFinite hPassed
      cases hFirst : observed.find? fun y =>
          Scalar.isFinite y.bestValue && y.evaluations / s = x.evaluations / s with
      | none =>
        rw [hFirst] at ih
        rw [if_pos (hRecorded.mpr ih), List.filter_append, ih]
        simp [hFinite]
      | some first =>
        rw [hFirst] at ih
        rw [if_neg (by rw [hRecorded, ih]; simp), ih]
        rfl
    · -- an observation of another block, or without a value, changes nothing in this one
      have hNone : [x].find? (fun y => Scalar.isFinite y.bestValue && y.evaluations / s = k) =
          none := by
        simpa using hMatch
      rw [hNone, Option.or_none, ← ih]
      split
      · next hNews =>
        have hOther : x.evaluations / s ≠ k := fun hSame => hMatch ⟨hNews.1, hSame⟩
        simp [hOther]
      · rfl

-- ---------------------------------------------------------------------------
-- The recorder
-- ---------------------------------------------------------------------------

namespace Recorder

variable {r : Recorder α}

/-- Observes one usage and value after the other. -/
def observeAll (r : Recorder α) (observed : List (Snapshot α)) : Except Breach (Recorder α) :=
  observed.foldlM (fun r x => r.observe x.evaluations x.bestValue) r

theorem observeAll_concat (r : Recorder α) (observed : List (Snapshot α)) (x : Snapshot α) :
    r.observeAll (observed ++ [x]) =
      r.observeAll observed >>= fun r => r.observe x.evaluations x.bestValue := by
  simp [observeAll]

omit [Scalar α] in
/-- **The threshold stands for the record**: usages whose block has no snapshot reach it. -/
theorem Regular.due_iff (hPeriod : 0 < s) (h : Regular s used r) (hWord : used + s < Word.size) :
    r.nextAt ≤ used ↔ s ≤ used ∧ ∀ x ∈ r.taken, x.evaluations / s ≠ used / s := by
  constructor
  · intro hDue
    exact ⟨h.period_le hDue, fun x hx => (h.block_lt hPeriod hWord hDue x hx).ne⟩
  · rintro ⟨hPassed, hOther⟩
    rw [h.nextAt]
    cases hTaken : r.taken with
    | nil => exact hPassed
    | cons last rest =>
      have hThere : last ∈ r.taken := hTaken ▸ List.mem_cons_self ..
      have hEarlier : last.evaluations / s ≤ used / s := Nat.div_le_div_right (h.within last hThere)
      have hBlock : last.evaluations / s + 1 ≤ used / s :=
        Nat.lt_of_le_of_ne hEarlier (hOther last hThere)
      calc Word.saturated ((last.evaluations / s + 1) * s)
          ≤ (last.evaluations / s + 1) * s := Nat.min_le_left ..
        _ ≤ used := (Nat.le_div_iff_mul_le hPeriod).mp hBlock

/-- Blocks are numbered by words, except the last block of a period of one. -/
theorem block_succ_lt (hPeriod : 0 < s) (hWord : used ≤ Word.largest)
    (hRoom : s = 1 → used < Word.largest) : used / s + 1 < Word.size := by
  unfold Word.largest Word.size at *
  rcases Nat.lt_or_ge s 2 with hOne | hTwo
  · obtain rfl : s = 1 := by omega
    have := hRoom rfl
    omega
  · have hHalf : used / s ≤ used / 2 := Nat.div_le_div_left hTwo Nat.zero_lt_two
    omega

/-- An observation does not break off where the number of the next block is a word. -/
theorem exists_observe_eq_ok (hPeriod : 0 < s) (hEvery : r.every = some s)
    (hFactor : used / s + 1 < Word.size) (best : α) : ∃ r', r.observe used best = .ok r' := by
  have hNext : thresholdAbove s used = .ok (Word.saturated ((used / s + 1) * s)) := by
    unfold thresholdAbove Word.checked
    rw [if_neg hPeriod.ne', if_pos hFactor]
    rfl
  unfold observe
  split
  · unfold advance
    rw [show (r.take used best).every = some s from hEvery]
    dsimp only
    rw [hNext]
    exact ⟨_, rfl⟩
  · exact ⟨r, rfl⟩

/-- **One observation** is recorded if it is news. -/
theorem Regular.observe_news (hPeriod : 0 < s) (h : Regular s x.evaluations r)
    (hWord : x.evaluations + s < Word.size) :
    ∃ r', r.observe x.evaluations x.bestValue = .ok r' ∧ Regular s x.evaluations r' ∧
      r'.snapshots = if IsNews s r.snapshots x then r.snapshots ++ [x] else r.snapshots := by
  have hBelow : x.evaluations < Word.largest := by
    unfold Word.largest
    omega
  obtain ⟨r', hObserve⟩ := exists_observe_eq_ok hPeriod h.every
    (block_succ_lt hPeriod hBelow.le fun _ => hBelow) x.bestValue
  have hDue := h.due_iff hPeriod hWord
  refine ⟨r', hObserve, h.observed hPeriod hObserve, ?_⟩
  -- the threshold is reached exactly when the block has not been recorded yet
  rcases observe_cases h.every hObserve with ⟨rfl, hNot⟩ | ⟨hReached, hFinite, rfl⟩
  · refine (if_neg fun hNews => ?_).symm
    obtain ⟨hFinite, hPassed, hOther⟩ := hNews
    have hReached := hDue.mpr ⟨hPassed, fun y hy => hOther y (List.mem_reverse.mpr hy)⟩
    rcases hNot with hBelow | hInfinite
    · omega
    · exact absurd (hFinite.symm.trans hInfinite) (by decide)
  · obtain ⟨hPassed, hOther⟩ := hDue.mp hReached
    have hNews : IsNews s r.snapshots x :=
      ⟨hFinite, hPassed, fun y hy => hOther y (List.mem_reverse.mp hy)⟩
    rw [if_pos hNews]
    exact List.reverse_cons

/-- A sequence of observations leaves a regular record of the news. -/
theorem exists_observeAll (hPeriod : 0 < s)
    (hOrder : observed.Pairwise fun x y => x.evaluations ≤ y.evaluations)
    (hWord : ∀ x ∈ observed, x.evaluations + s < Word.size) :
    ∃ r, (ofPeriod (some s)).observeAll observed = .ok r ∧ r.snapshots = news s observed ∧
      ∀ used, (∀ x ∈ observed, x.evaluations ≤ used) → Regular s used r := by
  induction observed using List.reverseRecOn with
  | nil => exact ⟨_, rfl, rfl, fun used _ => regular_ofPeriod s used⟩
  | append_singleton observed x ih =>
    obtain ⟨hBefore, -, hLast⟩ := List.pairwise_append.mp hOrder
    obtain ⟨r, hRun, hRecord, hRegular⟩ :=
      ih hBefore fun y hy => hWord y (List.mem_append_left _ hy)
    have hHere : Regular s x.evaluations r :=
      hRegular _ fun y hy => hLast y hy x List.mem_cons_self
    obtain ⟨r', hObserve, hAfter, hTaken⟩ :=
      hHere.observe_news hPeriod (hWord x (List.mem_append_right _ List.mem_cons_self))
    refine ⟨r', ?_, ?_, fun used hUsed => ?_⟩
    · rw [observeAll_concat, hRun]
      exact hObserve
    · rw [hTaken, hRecord, news_concat]
    · exact hAfter.mono (hUsed x (List.mem_append_right _ List.mem_cons_self))

/-- **A recorder keeps the news.** A sequence of observations whose usage does not decrease, and
stays a period below the largest word, leaves exactly those that are news when they are made. So of
every block after the first it keeps the first observation with a finite value, which is the first
observation where all values are finite. -/
theorem observeAll_news (hPeriod : 0 < s)
    (hOrder : observed.Pairwise fun x y => x.evaluations ≤ y.evaluations)
    (hWord : ∀ x ∈ observed, x.evaluations + s < Word.size) :
    ∃ r, (ofPeriod (some s)).observeAll observed = .ok r ∧ r.snapshots = news s observed ∧
      (∀ k, 1 ≤ k → r.snapshots.filter (fun x => x.evaluations / s = k) =
        (observed.find? fun x => Scalar.isFinite x.bestValue && x.evaluations / s = k).toList) ∧
      ((∀ x ∈ observed, Scalar.isFinite x.bestValue = true) →
        ∀ k, 1 ≤ k → r.snapshots.filter (fun x => x.evaluations / s = k) =
          (observed.find? fun x => x.evaluations / s = k).toList) := by
  obtain ⟨r, hRun, hRecord, -⟩ := exists_observeAll hPeriod hOrder hWord
  have hFirst : ∀ k, 1 ≤ k → r.snapshots.filter (fun x => x.evaluations / s = k) =
      (observed.find? fun x => Scalar.isFinite x.bestValue && x.evaluations / s = k).toList :=
    fun k hLater => hRecord ▸ filter_news hLater observed
  refine ⟨r, hRun, hRecord, hFirst, fun hFinite k hLater => ?_⟩
  rw [hFirst k hLater]
  congr 1
  exact List.find?_congr fun x hx => by simp [hFinite x hx]

/-- The value becomes finite late in the third block, and then seven blocks are crossed at once. -/
theorem observeAll_news_jump :
    let observed : List (Snapshot Float) :=
      [⟨Scalar.negInf, 250⟩, ⟨5, 260⟩, ⟨6, 299⟩, ⟨7, 1020⟩, ⟨8, 1099⟩]
    0 < 100 ∧ (observed.Pairwise fun x y => x.evaluations ≤ y.evaluations) ∧
      (∀ x ∈ observed, x.evaluations + 100 < Word.size) ∧
      ∃ r, (ofPeriod (some 100)).observeAll observed = .ok r ∧
        r.snapshots.map (·.evaluations) = [260, 1020] := by
  intro observed
  have hOrder : observed.Pairwise fun x y => x.evaluations ≤ y.evaluations := by decide
  have hWord : ∀ x ∈ observed, x.evaluations + 100 < Word.size := by decide
  have hNews : (news 100 observed).map (·.evaluations) = [260, 1020] := by decide +kernel
  obtain ⟨r, hRun, hRecord, -⟩ := observeAll_news (by decide) hOrder hWord
  exact ⟨by decide, hOrder, hWord, r, hRun, hRecord ▸ hNews⟩

end Recorder

end SwapSearch.Memetic
