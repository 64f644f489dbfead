import SwapSearch.Budget
import SwapSearch.Proofs.Memetic.Observations

/-!
# SwapSearch — records at the largest word

The usage of a budget stays at the largest word once it got there, and so does the
threshold of a recorder. Below the largest word the recorded usages rise, since the
threshold lies above the last of them. At the largest word it cannot: whoever observes it
has always reached the threshold, and every observation of it is recorded.

With a period of one the recorder breaks off there. The factor of the threshold is then the
usage itself and one more, which is no word.

## Results

* `Ascending.observe`    — one observation keeps the usages rising.
* `observe_overflow`     — the observation that breaks off.
* `pairwise_lt_iff`      — the usages rise strictly if the largest word occurs only once.
* `observeAll_saturated` — a recorder over the whole range of usages.
* `observeAll_unsafe`    — a recorder that breaks off, and one that repeats a usage.
-/

namespace SwapSearch.Memetic

variable {α : Type} {s used : Nat} {r : Recorder α} {x : Snapshot α}
  {observed recorded : List (Snapshot α)}

-- ---------------------------------------------------------------------------
-- Rising usages
-- ---------------------------------------------------------------------------

/-- Usage has come to the largest word. -/
def Snapshot.isSaturated (x : Snapshot α) : Bool := x.evaluations == Word.largest

theorem Snapshot.isSaturated_iff : x.isSaturated = true ↔ x.evaluations = Word.largest := beq_iff_eq

/-- The usage of `y` is larger than that of `x`, or both have come to the largest word. -/
def Snapshot.Rises (x y : Snapshot α) : Prop :=
  x.evaluations < y.evaluations ∨ x.isSaturated = true ∧ y.isSaturated = true

theorem pairwise_false_iff {β : Type} {items : List β} :
    items.Pairwise (fun _ _ => False) ↔ items.length ≤ 1 := by
  match items with
  | [] => simp
  | [_] => simp
  | _ :: _ :: _ =>
    exact iff_of_false (fun h => List.rel_of_pairwise_cons h List.mem_cons_self) (by simp)

/-- **Rising usages** rise strictly if the largest word occurs at most once among them. -/
theorem pairwise_lt_iff (h : recorded.Pairwise Snapshot.Rises) :
    recorded.Pairwise (fun x y => x.evaluations < y.evaluations) ↔
      recorded.countP Snapshot.isSaturated ≤ 1 := by
  rw [List.countP_eq_length_filter, ← pairwise_false_iff, List.pairwise_filter]
  constructor
  · refine List.Pairwise.imp fun hLess hx hy => ?_
    rw [Snapshot.isSaturated_iff.mp hx, Snapshot.isSaturated_iff.mp hy] at hLess
    exact Nat.lt_irrefl _ hLess
  · intro hApart
    refine (h.and hApart).imp fun hBoth => ?_
    exact hBoth.1.resolve_right fun hTop => hBoth.2 hTop.1 hTop.2

namespace Recorder

/-- A regular record whose usages rise. -/
structure Ascending (s used : Nat) (r : Recorder α) : Prop extends Regular s used r where
  rising : r.snapshots.Pairwise Snapshot.Rises

theorem ascending_ofPeriod (s used : Nat) :
    Ascending s used (.ofPeriod (some s) : Recorder α) :=
  ⟨regular_ofPeriod s used, .nil⟩

theorem Ascending.mono {used' : Nat} (h : Ascending s used r) (hUsed : used ≤ used') :
    Ascending s used' r :=
  ⟨h.toRegular.mono hUsed, h.rising⟩

/-- The threshold stays within the words. -/
theorem Regular.nextAt_le (h : Regular s used r) (hPeriodWord : s ≤ Word.largest) :
    r.nextAt ≤ Word.largest := by
  rw [h.nextAt]
  cases r.taken with
  | nil => exact hPeriodWord
  | cons last rest => exact Nat.min_le_right ..

/-- A usage that has reached the threshold lies above all that were recorded, unless it is the
largest word. -/
theorem Ascending.rises (hPeriod : 0 < s) (h : Ascending s x.evaluations r)
    (hWord : x.evaluations ≤ Word.largest) (hDue : r.nextAt ≤ x.evaluations) :
    ∀ y ∈ r.taken, y.Rises x := by
  have hRising := List.pairwise_reverse.mp h.rising
  have hWithin := h.within
  have hNext := h.nextAt
  cases hTaken : r.taken with
  | nil => exact nofun
  | cons last rest =>
    rw [hTaken] at hNext hRising hWithin
    have hMost := hWithin last List.mem_cons_self
    -- the last usage lies before the end of its block
    have hAbove : last.evaluations < (last.evaluations / s + 1) * s :=
      (Nat.div_lt_iff_lt_mul hPeriod).mp (Nat.lt_succ_self _)
    have hLast : last.Rises x := by
      -- clamping the threshold matters only if the last usage was the largest word itself
      rcases Nat.lt_or_ge last.evaluations Word.largest with hBelow | hTop
      · refine Or.inl ?_
        calc last.evaluations
            < Word.saturated ((last.evaluations / s + 1) * s) := Nat.lt_min.mpr ⟨hAbove, hBelow⟩
          _ ≤ x.evaluations := hNext.symm.trans_le hDue
      · exact Or.inr ⟨Snapshot.isSaturated_iff.mpr (Nat.le_antisymm (hMost.trans hWord) hTop),
          Snapshot.isSaturated_iff.mpr (Nat.le_antisymm hWord (hTop.trans hMost))⟩
    -- the older ones rise to the last
    intro y hy
    rcases List.mem_cons.mp hy with rfl | hOlder
    · exact hLast
    · rcases List.rel_of_pairwise_cons hRising hOlder with hLess | ⟨hTop, hLastTop⟩
      · exact Or.inl (hLess.trans_le hMost)
      · rcases hLast with hLess | ⟨-, hHere⟩
        · rw [Snapshot.isSaturated_iff.mp hLastTop] at hLess
          exact absurd hWord hLess.not_ge
        · exact Or.inr ⟨hTop, hHere⟩

-- ---------------------------------------------------------------------------
-- Observing
-- ---------------------------------------------------------------------------

variable [Scalar α]

/-- **One observation** of a finite value keeps the usages rising, and is recorded if it is of the
largest word. -/
theorem Ascending.observe (hPeriod : 0 < s) (hPeriodWord : s ≤ Word.largest)
    (h : Ascending s x.evaluations r) (hWord : x.evaluations ≤ Word.largest)
    (hFinite : Scalar.isFinite x.bestValue = true) (hRoom : s = 1 → x.evaluations < Word.largest) :
    ∃ r', r.observe x.evaluations x.bestValue = .ok r' ∧ Ascending s x.evaluations r' ∧
      r'.snapshots.filter Snapshot.isSaturated =
        r.snapshots.filter Snapshot.isSaturated ++ [x].filter Snapshot.isSaturated := by
  obtain ⟨r', hObserve⟩ := exists_observe_eq_ok hPeriod h.every
    (block_succ_lt hPeriod hWord hRoom) x.bestValue
  have hRegular := h.toRegular.observed hPeriod hObserve
  refine ⟨r', hObserve, ?_⟩
  -- below the threshold, so not the largest word; or recorded
  rcases observe_cases h.every hObserve with ⟨rfl, hNot⟩ | ⟨hDue, -, rfl⟩
  · have hBelow : x.evaluations < r'.nextAt :=
      hNot.resolve_right fun hInfinite => nomatch hFinite.symm.trans hInfinite
    have hNotTop : x.isSaturated ≠ true := fun hTop =>
      (hBelow.trans_le (h.nextAt_le hPeriodWord)).ne (Snapshot.isSaturated_iff.mp hTop)
    refine ⟨⟨hRegular, h.rising⟩, ?_⟩
    rw [List.filter_cons_of_neg hNotTop, List.filter_nil, List.append_nil]
  · have hSnapshots : (x :: r.taken).reverse = r.snapshots ++ [x] := List.reverse_cons
    refine ⟨⟨hRegular, ?_⟩, ?_⟩
    · show (x :: r.taken).reverse.Pairwise Snapshot.Rises
      exact List.pairwise_reverse.mpr (List.pairwise_cons.mpr
        ⟨h.rises hPeriod hWord hDue, List.pairwise_reverse.mp h.rising⟩)
    · show (x :: r.taken).reverse.filter Snapshot.isSaturated = _
      rw [hSnapshots, List.filter_append]

/-- With a period of one no block follows that of the largest word. -/
theorem observe_overflow {best : α} (hEvery : r.every = some 1) (hNext : r.nextAt ≤ Word.largest)
    (hFinite : Scalar.isFinite best = true) :
    r.observe Word.largest best = .error .overflow := by
  have hDue : r.isDue Word.largest best = true := by
    simp [isDue, hEvery, hNext, hFinite]
  unfold observe
  rw [if_pos hDue]
  unfold advance
  rw [show (r.take Word.largest best).every = some 1 from hEvery]
  rfl

/-- Observations of words that do not break off. -/
theorem exists_observeAll_ascending (hPeriod : 0 < s) (hPeriodWord : s ≤ Word.largest)
    (hOrder : observed.Pairwise fun x y => x.evaluations ≤ y.evaluations)
    (hWord : ∀ x ∈ observed, x.evaluations ≤ Word.largest)
    (hFinite : ∀ x ∈ observed, Scalar.isFinite x.bestValue = true)
    (hRoom : s = 1 → ∀ x ∈ observed, x.evaluations < Word.largest) :
    ∃ r, (ofPeriod (some s)).observeAll observed = .ok r ∧
      (∀ used, (∀ x ∈ observed, x.evaluations ≤ used) → Ascending s used r) ∧
      r.snapshots.filter Snapshot.isSaturated = observed.filter Snapshot.isSaturated := by
  -- from the right: what was recorded before bounds the next observation
  induction observed using List.reverseRecOn with
  | nil => exact ⟨_, rfl, fun used _ => ascending_ofPeriod s used, rfl⟩
  | append_singleton observed x ih =>
    obtain ⟨hBefore, -, hLast⟩ := List.pairwise_append.mp hOrder
    have hHere : x ∈ observed ++ [x] := List.mem_append_right _ List.mem_cons_self
    obtain ⟨r, hRun, hAscending, hTop⟩ :=
      ih hBefore (fun y hy => hWord y (List.mem_append_left _ hy))
        (fun y hy => hFinite y (List.mem_append_left _ hy))
        fun hOne y hy => hRoom hOne y (List.mem_append_left _ hy)
    have hReached := hAscending x.evaluations fun y hy => hLast y hy x List.mem_cons_self
    obtain ⟨r', hObserve, hAfter, hTaken⟩ := hReached.observe hPeriod hPeriodWord (hWord x hHere)
      (hFinite x hHere) fun hOne => hRoom hOne x hHere
    refine ⟨r', ?_, fun used hUsed => hAfter.mono (hUsed x hHere), ?_⟩
    · rw [observeAll_concat, hRun]
      exact hObserve
    · rw [hTaken, hTop, List.filter_append]

/-- Observing the largest word with a period of one breaks off. -/
theorem observeAll_overflow
    (hOrder : observed.Pairwise fun x y => x.evaluations ≤ y.evaluations)
    (hWord : ∀ x ∈ observed, x.evaluations ≤ Word.largest)
    (hFinite : ∀ x ∈ observed, Scalar.isFinite x.bestValue = true)
    (hTop : ∃ x ∈ observed, x.isSaturated = true) :
    (ofPeriod (some 1)).observeAll observed = .error .overflow := by
  induction observed using List.reverseRecOn with
  | nil => simp at hTop
  | append_singleton observed x ih =>
    have hBefore := (List.pairwise_append.mp hOrder).1
    have hWordBefore : ∀ y ∈ observed, y.evaluations ≤ Word.largest := fun y hy =>
      hWord y (List.mem_append_left _ hy)
    have hFiniteBefore : ∀ y ∈ observed, Scalar.isFinite y.bestValue = true := fun y hy =>
      hFinite y (List.mem_append_left _ hy)
    rw [observeAll_concat]
    by_cases hEarlier : ∃ y ∈ observed, y.isSaturated = true
    · rw [ih hBefore hWordBefore hFiniteBefore hEarlier]
      rfl
    · -- so `x` is the first observation of the largest word
      have hBelow : ∀ y ∈ observed, y.evaluations < Word.largest := fun y hy =>
        Nat.lt_of_le_of_ne (hWordBefore y hy) fun hEq =>
          hEarlier ⟨y, hy, Snapshot.isSaturated_iff.mpr hEq⟩
      have hHere : x.evaluations = Word.largest := by
        obtain ⟨y, hy, hSaturated⟩ := hTop
        rcases List.mem_append.mp hy with hOld | hNew
        · exact absurd ⟨y, hOld, hSaturated⟩ hEarlier
        · exact List.mem_singleton.mp hNew ▸ Snapshot.isSaturated_iff.mp hSaturated
      obtain ⟨r, hRun, hAscending, -⟩ := exists_observeAll_ascending Nat.zero_lt_one
        (by decide) hBefore hWordBefore hFiniteBefore fun _ => hBelow
      have hRegular := (hAscending Word.largest hWordBefore).toRegular
      rw [hRun, hHere]
      exact observe_overflow hRegular.every (hRegular.nextAt_le (by decide))
        (hFinite x (List.mem_append_right _ List.mem_cons_self))

/-- **A recorder over the whole range.** With a period of one it breaks off when it observes the
largest word. Otherwise no sequence of words that do not decrease makes it break off, as long as the
values are finite: it records every observation of the largest word, and the recorded usages are
strictly increasing exactly if there is at most one. -/
theorem observeAll_saturated (hPeriod : 0 < s) (hPeriodWord : s ≤ Word.largest)
    (hOrder : observed.Pairwise fun x y => x.evaluations ≤ y.evaluations)
    (hWord : ∀ x ∈ observed, x.evaluations ≤ Word.largest)
    (hFinite : ∀ x ∈ observed, Scalar.isFinite x.bestValue = true) :
    (s = 1 → (∃ x ∈ observed, x.isSaturated = true) →
      (ofPeriod (some s)).observeAll observed = .error .overflow) ∧
    ((s = 1 → ∀ x ∈ observed, x.evaluations < Word.largest) →
      ∃ r, (ofPeriod (some s)).observeAll observed = .ok r ∧
        r.snapshots.filter Snapshot.isSaturated = observed.filter Snapshot.isSaturated ∧
        (r.snapshots.Pairwise (fun x y => x.evaluations < y.evaluations) ↔
          observed.countP Snapshot.isSaturated ≤ 1)) := by
  refine ⟨?_, fun hRoom => ?_⟩
  · rintro rfl hTop
    exact observeAll_overflow hOrder hWord hFinite hTop
  · obtain ⟨r, hRun, hAscending, hTop⟩ :=
      exists_observeAll_ascending hPeriod hPeriodWord hOrder hWord hFinite hRoom
    refine ⟨r, hRun, hTop, ?_⟩
    rw [pairwise_lt_iff (hAscending Word.largest hWord).rising, List.countP_eq_length_filter, hTop,
      ← List.countP_eq_length_filter]

/-- The threshold after the second snapshot would be `2 ^ 64` and stays one below. -/
theorem observeAll_saturated_pair :
    let observed : List (Snapshot Float) :=
      [⟨1, 3⟩, ⟨2, 18446744073709551614⟩, ⟨3, 18446744073709551615⟩]
    0 < 2 ∧ 2 ≤ Word.largest ∧ (observed.Pairwise fun x y => x.evaluations ≤ y.evaluations) ∧
      (∀ x ∈ observed, x.evaluations ≤ Word.largest) ∧
      (∀ x ∈ observed, Scalar.isFinite x.bestValue = true) ∧
      observed.countP Snapshot.isSaturated = 1 ∧
      ∃ r, (ofPeriod (some 2)).observeAll observed = .ok r ∧
        r.snapshots.Pairwise fun x y => x.evaluations < y.evaluations := by
  intro observed
  have hOrder : observed.Pairwise fun x y => x.evaluations ≤ y.evaluations := by decide
  have hWord : ∀ x ∈ observed, x.evaluations ≤ Word.largest := by decide
  have hFinite : ∀ x ∈ observed, Scalar.isFinite x.bestValue = true := by decide +kernel
  have hOnce : observed.countP Snapshot.isSaturated = 1 := by decide
  have hPeriod : 2 ≤ Word.largest := by decide
  obtain ⟨-, hRuns⟩ := observeAll_saturated Nat.zero_lt_two hPeriod hOrder hWord hFinite
  obtain ⟨r, hRun, -, hStrict⟩ := hRuns fun hOne => absurd hOne (by decide)
  exact ⟨Nat.zero_lt_two, hPeriod, hOrder, hWord, hFinite, hOnce, r, hRun, hStrict.mpr hOnce.le⟩

/-- A budget that has come to the largest word reports it again after the next charge. A recorder
with a period of one breaks off when it hears of it, and one with a period of two records it
twice. -/
theorem observeAll_unsafe :
    let full := (Budget.grant Word.largest).charge Word.largest
    let first : Snapshot Float := ⟨1, full.used⟩
    let second : Snapshot Float := ⟨2, (full.charge 1).used⟩
    (ofPeriod (some 1)).observeAll [first] = .error .overflow ∧
      ∃ r, (ofPeriod (some 2)).observeAll [first, second] = .ok r ∧
        r.snapshots.map (·.evaluations) = [Word.largest, Word.largest] ∧
        ¬ r.snapshots.Pairwise fun x y => x.evaluations < y.evaluations := by
  intro full first second
  have hEnd : ((ofPeriod (some 2)).observeAll [first, second]).toOption.map
      (fun r => r.snapshots.map (·.evaluations)) = some [Word.largest, Word.largest] := by
    decide +kernel
  obtain ⟨r, hRun, hUsages⟩ := exists_of_toOption_map hEnd
  refine ⟨observeAll_overflow (List.pairwise_singleton ..) (by decide) (by decide +kernel)
    (by decide), r, hRun, hUsages, fun hStrict => ?_⟩
  have hRise : (r.snapshots.map (·.evaluations)).Pairwise (· < ·) := List.pairwise_map.mpr hStrict
  rw [hUsages] at hRise
  exact absurd hRise (by decide)

end Recorder

end SwapSearch.Memetic
