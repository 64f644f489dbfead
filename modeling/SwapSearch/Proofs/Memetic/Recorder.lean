import Mathlib.Data.List.Pairwise
import Mathlib.Tactic.Linarith
import SwapSearch.Memetic.Snapshot
import SwapSearch.Proofs.Scalar.Exact
import SwapSearch.Proofs.Tabu.Contract

/-!
# SwapSearch — records and their mean

A recorder cuts the evaluations into blocks of one period each. It takes a snapshot when it
observes a usage beyond the block of the last one and knows a finite value; then it waits
for the next block. So no two snapshots lie in one block, as long as the thresholds are
words.

The mean of a record gives every best value the evaluations since the snapshot before as
its weight. The weights telescope to the evaluations of the last snapshot, so the mean lies
between any bounds of the best values.

## Results

* `observe_cases`        — what an observation can do.
* `Regular.observed`     — an observation keeps the snapshots in different blocks.
* `anytimeValue_between` — the mean lies between the first best value and the last one.
-/

namespace SwapSearch.Memetic

-- ---------------------------------------------------------------------------
-- Observing
-- ---------------------------------------------------------------------------

namespace Recorder

variable {α : Type} [Scalar α] {s used : Nat} {best : α} {r r' : Recorder α}

/-- The next threshold after the snapshots taken. -/
def thresholdAfter (s : Nat) : List (Snapshot α) → Nat
  | [] => s
  | last :: _ => Word.saturated ((last.evaluations / s + 1) * s)

/-- What an observation can do: nothing, because the threshold is not reached or no finite value is
known, or take a snapshot and move the threshold on. -/
theorem observe_cases (hEvery : r.every = some s) (h : r.observe used best = .ok r') :
    r' = r ∧ (used < r.nextAt ∨ Scalar.isFinite best = false) ∨
      r.nextAt ≤ used ∧ Scalar.isFinite best = true ∧
      r' = { r with
        nextAt := thresholdAfter s (⟨best, used⟩ :: r.taken)
        taken := ⟨best, used⟩ :: r.taken } := by
  unfold observe isDue at h
  rw [hEvery] at h
  -- due or not; if it is due, the next threshold is computed with checks that must have passed
  split at h
  · next hDue =>
    simp only [Option.isSome_some, Bool.true_and, Bool.and_eq_true, decide_eq_true_eq] at hDue
    unfold advance at h
    rw [show (r.take used best).every = some s from hEvery] at h
    obtain ⟨nextAt, hNext, h⟩ := exists_of_bind_ok h
    obtain rfl := Except.ok.inj h
    unfold thresholdAbove at hNext
    split at hNext
    · exact nomatch hNext
    · obtain ⟨factor, hFactor, hNext⟩ := exists_of_bind_ok hNext
      obtain rfl := Except.ok.inj hNext
      unfold Word.checked at hFactor
      split at hFactor
      · obtain rfl := Except.ok.inj hFactor
        rw [hEvery]
        exact Or.inr ⟨hDue.1, hDue.2, rfl⟩
      · exact nomatch hFactor
  · next hNot =>
    obtain rfl := Except.ok.inj h
    simp only [Option.isSome_some, Bool.true_and, Bool.and_eq_true, decide_eq_true_eq,
      not_and, Bool.not_eq_true] at hNot
    refine Or.inl ⟨rfl, ?_⟩
    rcases Nat.lt_or_ge used r.nextAt with hBelow | hReached
    · exact Or.inl hBelow
    · exact Or.inr (hNot hReached)

/-- A record with period `s` that has observed at most `used` evaluations. The blocks are told
apart only while the thresholds are words. -/
structure Regular (s used : Nat) (r : Recorder α) : Prop where
  every : r.every = some s
  nextAt : r.nextAt = thresholdAfter s r.taken
  above : ∀ x ∈ r.taken, s ≤ x.evaluations
  within : ∀ x ∈ r.taken, x.evaluations ≤ used
  blocks : used + s < Word.size →
    r.taken.Pairwise fun x y => y.evaluations / s < x.evaluations / s

omit [Scalar α] in
/-- Nothing has been recorded yet. -/
theorem regular_ofPeriod (s used : Nat) : Regular s used (.ofPeriod (some s) : Recorder α) :=
  ⟨rfl, rfl, nofun, nofun, fun _ => .nil⟩

omit [Scalar α] in
theorem Regular.mono {used' : Nat} (h : Regular s used r) (hUsed : used ≤ used') :
    Regular s used' r where
  every := h.every
  nextAt := h.nextAt
  above := h.above
  within x hx := (h.within x hx).trans hUsed
  blocks hWord := h.blocks (by omega)

omit [Scalar α] in
/-- The block of a usage that has reached the threshold lies beyond the blocks of all snapshots. -/
theorem Regular.block_lt (hPeriod : 0 < s) (h : Regular s used r) (hWord : used + s < Word.size)
    (hDue : r.nextAt ≤ used) : ∀ x ∈ r.taken, x.evaluations / s < used / s := by
  obtain ⟨every, nextAt, taken⟩ := r
  cases taken with
  | nil => exact nofun
  | cons last rest =>
    -- the threshold is the end of the block of the last snapshot, clamped to the largest word
    have hThreshold : Word.saturated ((last.evaluations / s + 1) * s) ≤ used :=
      h.nextAt.symm.trans_le hDue
    -- a usage with room for one more block is not the largest word, so the clamp plays no part
    have hLast : last.evaluations / s < used / s := by
      have hWithin := h.within last (List.mem_cons_self ..)
      have hFloor : last.evaluations / s * s ≤ last.evaluations := Nat.div_mul_le_self ..
      rw [Nat.lt_iff_add_one_le, Nat.le_div_iff_mul_le hPeriod]
      rw [Nat.add_mul, Nat.one_mul] at hThreshold ⊢
      unfold Word.saturated Word.largest at hThreshold
      omega
    intro x hx
    rcases List.mem_cons.mp hx with rfl | hOlder
    · exact hLast
    · exact (List.rel_of_pairwise_cons (h.blocks hWord) hOlder).trans hLast

omit [Scalar α] in
/-- A usage that has reached the threshold is one period at least. -/
theorem Regular.period_le (h : Regular s used r) (hDue : r.nextAt ≤ used) : s ≤ used := by
  have hNext := h.nextAt
  cases hTaken : r.taken with
  | nil =>
    rw [hTaken] at hNext
    exact hNext.symm.trans_le hDue
  | cons last rest =>
    have hThere : last ∈ r.taken := hTaken ▸ List.mem_cons_self ..
    exact (h.above last hThere).trans (h.within last hThere)

/-- **An observation** keeps a record regular. -/
theorem Regular.observed (hPeriod : 0 < s) (h : Regular s used r)
    (hObserve : r.observe used best = .ok r') : Regular s used r' := by
  rcases observe_cases h.every hObserve with ⟨rfl, -⟩ | ⟨hDue, -, rfl⟩
  · exact h
  · exact ⟨h.every, rfl, List.forall_mem_cons.mpr ⟨h.period_le hDue, h.above⟩,
      List.forall_mem_cons.mpr ⟨Nat.le_refl _, h.within⟩,
      fun hWord => List.pairwise_cons.mpr ⟨h.block_lt hPeriod hWord hDue, h.blocks hWord⟩⟩

end Recorder

-- ---------------------------------------------------------------------------
-- The mean
-- ---------------------------------------------------------------------------

section Mean

variable {β : Type} [ExactScalar β] {snapshots : List (Snapshot β)} {least greatest : β}

/-- The evaluations of the last snapshot, or `previous` if there is none. -/
def lastEvaluations (previous : Nat) : List (Snapshot β) → Nat
  | [] => previous
  | s :: rest => lastEvaluations s.evaluations rest

/-- **The weights telescope.** The weighted sum lies between what it would be if all best values
were the least and the greatest one. -/
theorem weightedSum_between (previous : Nat) (total : β)
    (hBetween : ∀ x ∈ snapshots, least ≤ x.bestValue ∧ x.bestValue ≤ greatest)
    (hOrder : (previous :: snapshots.map (·.evaluations)).Pairwise (· ≤ ·)) :
    total + least * ((lastEvaluations previous snapshots : β) - previous) ≤
        weightedSum previous total snapshots ∧
      weightedSum previous total snapshots ≤
        total + greatest * ((lastEvaluations previous snapshots : β) - previous) := by
  -- on the snapshots, with the usage before them and the sum so far left free
  induction snapshots generalizing previous total with
  | nil =>
    show total + least * ((previous : β) - previous) ≤ total ∧
      total ≤ total + greatest * ((previous : β) - previous)
    simp
  | cons x rest ih =>
    obtain ⟨⟨hLeast, hGreatest⟩, hRest⟩ := List.forall_mem_cons.mp hBetween
    obtain ⟨hFirst, hLater⟩ := List.pairwise_cons.mp hOrder
    have hStep : previous ≤ x.evaluations := hFirst _ (List.mem_cons_self ..)
    obtain ⟨hBelow, hAbove⟩ := ih x.evaluations
      (total + x.bestValue * ((x.evaluations - previous : Nat) : β)) hRest hLater
    -- a snapshot counts for the usage since the one before, which is not negative
    have hWeight : (0 : β) ≤ (x.evaluations : β) - previous :=
      sub_nonneg.mpr (Nat.cast_le.mpr hStep)
    rw [Nat.cast_sub hStep] at hBelow hAbove
    have hLow := mul_le_mul_of_nonneg_right hLeast hWeight
    have hHigh := mul_le_mul_of_nonneg_right hGreatest hWeight
    show total + least * ((lastEvaluations x.evaluations rest : β) - previous) ≤
        weightedSum x.evaluations _ rest ∧ weightedSum x.evaluations _ rest ≤
        total + greatest * ((lastEvaluations x.evaluations rest : β) - previous)
    rw [Nat.cast_sub hStep]
    constructor
    · linarith
    · linarith

omit [ExactScalar β] in
theorem lastEvaluations_eq {last : Snapshot β} (previous : Nat)
    (h : snapshots.getLast? = some last) :
    lastEvaluations previous snapshots = last.evaluations := by
  induction snapshots generalizing previous with
  | nil => exact nomatch h
  | cons x rest ih =>
    cases rest with
    | nil => exact congrArg Snapshot.evaluations (Option.some.inj h)
    | cons y rest => exact ih x.evaluations h

/-- **The mean** of a record whose best values rise lies between the first and the last of them. -/
theorem anytimeValue_between {first last : Snapshot β} (hFirst : snapshots.head? = some first)
    (hLast : snapshots.getLast? = some last)
    (hRising : snapshots.Pairwise fun x y => x.bestValue ≤ y.bestValue)
    (hOrder : snapshots.Pairwise fun x y => x.evaluations ≤ y.evaluations)
    (hPositive : 0 < last.evaluations) :
    ∃ v, anytimeValue snapshots = some v ∧ first.bestValue ≤ v ∧ v ≤ last.bestValue := by
  have hBetween : ∀ x ∈ snapshots,
      first.bestValue ≤ x.bestValue ∧ x.bestValue ≤ last.bestValue := by
    intro x hx
    have hSome := List.ne_nil_of_mem hx
    obtain rfl := Option.some.inj ((List.head?_eq_some_head hSome).symm.trans hFirst)
    obtain rfl := Option.some.inj ((List.getLast?_eq_some_getLast hSome).symm.trans hLast)
    exact ⟨hRising.rel_head_of_rel_head_head hx le_rfl,
      hRising.rel_getLast_of_rel_getLast_getLast hx le_rfl⟩
  -- the usages rise from nothing, so the weights add up to the last of them
  have hAll : (0 :: snapshots.map (·.evaluations)).Pairwise (· ≤ ·) :=
    List.pairwise_cons.mpr ⟨fun _ _ => Nat.zero_le _, List.pairwise_map.mpr hOrder⟩
  obtain ⟨hBelow, hAbove⟩ := weightedSum_between 0 0 hBetween hAll
  rw [lastEvaluations_eq 0 hLast, Nat.cast_zero, sub_zero, zero_add] at hBelow hAbove
  have hWeight : (0 : β) < last.evaluations := Nat.cast_pos.mpr hPositive
  refine ⟨weightedSum 0 0 snapshots / (last.evaluations : β), ?_,
    (le_div_iff₀ hWeight).mpr hBelow, (div_le_iff₀ hWeight).mpr hAbove⟩
  unfold anytimeValue
  rw [hLast]
  exact if_neg hPositive.ne'

end Mean

end SwapSearch.Memetic
