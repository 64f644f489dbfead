import SwapSearch.Proofs.Memetic.Elites
import SwapSearch.Proofs.Memetic.Reasons
import SwapSearch.Proofs.Memetic.Recorder
import SwapSearch.Proofs.Memetic.Safety

/-!
# SwapSearch — the snapshots of a run

The record of a run is kept by its watch, which is told of every charge, inside local
searches as well as between them. Between two charges the best value the watch knows can
only rise. So whichever way looks, values and charges interleave, the snapshots lie in
different blocks, their best values rise, and none is above what the watch knows; and at
the end the watch knows the best value of the report.

## Results

* `Recorded.step`      — every change of the tally keeps the record in order.
* `optimize_snapshots` — the record of a whole run, and what its mean lies between.
-/

namespace SwapSearch.Memetic

open OrderedScalar FaithfulScalar

-- ---------------------------------------------------------------------------
-- The record
-- ---------------------------------------------------------------------------

section Record

variable {α : Type} [Scalar α] {s : Nat} {t t' : Tally α}

/-- The record of a tally: snapshots of period `s` with finite best values that rise and are not
above the best value known. -/
structure Recorded (s : Nat) (t : Tally α) : Prop where
  used_le : t.budget.used ≤ Word.largest
  regular : t.watch.recorder.Regular s t.budget.used
  number : Scalar.isNaN t.watch.best = false
  finite : ∀ x ∈ t.watch.recorder.taken, Scalar.isFinite x.bestValue = true
  bounded : ∀ x ∈ t.watch.recorder.taken, x.bestValue ≤ t.watch.best
  rising : t.watch.recorder.taken.Pairwise fun x y => y.bestValue ≤ x.bestValue

namespace Recorded

theorem look (h : Recorded s t) : Recorded s { t with watch := t.watch.deadlinePassed.2 } := by
  obtain ⟨looks, -, hChanges⟩ := t.watch.deadlinePassed_changes
  rw [hChanges]
  exact { h with }

variable [OrderedScalar α] [FaithfulScalar α]

theorem raise (h : Recorded s t) (value : α) :
    Recorded s { t with watch := t.watch.raise value } := by
  have hLarger : t.watch.best ≤ Scalar.larger t.watch.best value :=
    Scalar.le_larger_left h.number
  exact { h with
    number := (isNaN_of_le hLarger).2
    bounded := fun x hx => le_trans (h.bounded x hx) hLarger }

omit [FaithfulScalar α] in
theorem charge (hPeriod : 0 < s) (h : Recorded s t) {units : Nat} (hCharge : t.Charges units t') :
    Recorded s t' := by
  obtain ⟨recorder, hObserve, rfl⟩ := Tally.exists_of_charges hCharge
  obtain ⟨hMore, hMost⟩ := Budget.used_le_charge h.used_le units
  have hRegular : recorder.Regular s (t.budget.charge units).used :=
    (h.regular.mono hMore).observed hPeriod hObserve
  rcases Recorder.observe_cases h.regular.every hObserve with ⟨rfl, -⟩ | ⟨-, hFinite, rfl⟩
  · exact ⟨hMost, hRegular, h.number, h.finite, h.bounded, h.rising⟩
  · exact ⟨hMost, hRegular, h.number, List.forall_mem_cons.mpr ⟨hFinite, h.finite⟩,
      List.forall_mem_cons.mpr ⟨le_self h.number, h.bounded⟩,
      List.pairwise_cons.mpr ⟨h.bounded, h.rising⟩⟩

/-- **Every change of the tally keeps the record in order.** -/
theorem step (hPeriod : 0 < s) (h : Recorded s t) (hStep : Tally.Step t t') : Recorded s t' := by
  cases hStep with
  | look => exact h.look
  | raise value => exact h.raise value
  | charge hCharge => exact h.charge hPeriod hCharge

theorem steps (hPeriod : 0 < s) (h : Recorded s t) (hSteps : Tally.Steps t t') :
    Recorded s t' := by
  induction hSteps with
  | refl => exact h
  | tail _ hLast ih => exact ih.step hPeriod hLast

end Recorded

/-- A run begins with an empty record. -/
theorem recorded_begin [FaithfulScalar α] {settings : Settings α}
    (hEvery : settings.snapshotEvery = some s) (evaluations dimensions : Nat) (clock : Clock) :
    Recorded s ⟨.grant evaluations, .begin settings dimensions clock⟩ := by
  have hRecorder : (Watch.begin settings dimensions clock).recorder = .ofPeriod (some s) := by
    unfold Watch.begin
    rw [hEvery]
  have hBest : (Watch.begin settings dimensions clock).best = Scalar.negInf := by
    unfold Watch.begin
    cases settings.timeLimit <;> rfl
  refine ⟨Nat.zero_le _, ?_, ?_, ?_, ?_, ?_⟩ <;> dsimp only
  · rw [hRecorder]
    exact Recorder.regular_ofPeriod s _
  · rw [hBest]
    exact isNaN_negInf
  · rw [hRecorder]
    exact nofun
  · rw [hRecorder]
    exact nofun
  · rw [hRecorder]
    exact .nil

end Record

-- ---------------------------------------------------------------------------
-- Whole runs
-- ---------------------------------------------------------------------------

/-- Reads the best value as another kind of number. -/
def Snapshot.map {α β : Type} (value : α → β) (x : Snapshot α) : Snapshot β :=
  ⟨value x.bestValue, x.evaluations⟩

variable {α ρ : Type} [Scalar α]

/-- The snapshots of a run, in the order they were taken: at most one in every block of `s`
evaluations and none in the first, with finite best values that rise up to the last best value. -/
structure Report.InOrder (s : Nat) (report : Report α ρ) : Prop where
  increasing : report.snapshots.Pairwise fun x y => x.evaluations < y.evaluations
  blocks : report.snapshots.Pairwise fun x y => x.evaluations / s < y.evaluations / s
  above : ∀ x ∈ report.snapshots, s ≤ x.evaluations
  finite : ∀ x ∈ report.snapshots, Scalar.isFinite x.bestValue = true
  rising : report.snapshots.Pairwise fun x y => x.bestValue ≤ y.bestValue
  bounded : ∀ x ∈ report.snapshots, x.bestValue ≤ report.bestValue

variable [OrderedScalar α] [FaithfulScalar α] [RandomSource ρ] {objectives : List (Objective α)}
  {evaluations : Nat} {settings : Settings α} {clock : Clock} {random : ρ} {report : Report α ρ}
  {s : Nat}

omit [OrderedScalar α] [FaithfulScalar α] in
/-- A period that has been checked is positive. -/
theorem period_pos (hEvery : settings.snapshotEvery = some s)
    (hOptimize : optimize objectives evaluations settings clock random = .ok report) : 0 < s := by
  obtain ⟨begun, hBegin, -⟩ := exists_of_bind_ok hOptimize
  have hChecked := checked_of_valid (started_of_begin hBegin).valid
  refine Nat.pos_of_ne_zero ?_
  rintro rfl
  exact hChecked.period hEvery

theorem recorded_of_optimize (hEvery : settings.snapshotEvery = some s)
    (hOptimize : optimize objectives evaluations settings clock random = .ok report) :
    Recorded s report.run.tally :=
  (recorded_begin hEvery ..).steps (period_pos hEvery hOptimize) (steps_of_optimize hOptimize)

/-- At the end the watch knows the best value of the report. -/
theorem best_beq_of_optimize
    (hOptimize : optimize objectives evaluations settings clock random = .ok report) :
    (report.run.watch.best == report.bestValue) = true := by
  obtain ⟨start, children, top, answer, ended, hPrepare, hTop, -, -, -, -, hBooks⟩ :=
    exists_of_optimize hOptimize
  have hWatching := watching_atTop (watching_prepare hPrepare) hTop
  rw [← hBooks] at hWatching
  exact hWatching.agrees

/-- The record of a whole run. -/
theorem inOrder_of_optimize (hEvery : settings.snapshotEvery = some s)
    (hUsage : report.evaluations + s < Word.size)
    (hOptimize : optimize objectives evaluations settings clock random = .ok report) :
    report.InOrder s := by
  have hRecorded := recorded_of_optimize hEvery hOptimize
  have hBlocks := List.pairwise_reverse.mpr (hRecorded.regular.blocks hUsage)
  have hBest := (beq_iff_le_le.mp (best_beq_of_optimize hOptimize)).1
  refine ⟨hBlocks.imp fun {x y} hLess => ?_, hBlocks, fun x hx => ?_, fun x hx => ?_,
    List.pairwise_reverse.mpr hRecorded.rising, fun x hx => ?_⟩
  · exact Nat.lt_of_not_le fun hLe => Nat.not_le.mpr hLess (Nat.div_le_div_right hLe)
  · exact hRecorded.regular.above x (List.mem_reverse.mp hx)
  · exact hRecorded.finite x (List.mem_reverse.mp hx)
  · exact le_trans (hRecorded.bounded x (List.mem_reverse.mp hx)) hBest

/-- **The record of a run** is in order, and its mean lies between the first best value and the last
one, hence not above the best value of the report, if it is taken in exact arithmetic: in any in
which finite values can be read so that their order is kept. -/
theorem optimize_snapshots (hEvery : settings.snapshotEvery = some s)
    (hUsage : report.evaluations + s < Word.size)
    (hOptimize : optimize objectives evaluations settings clock random = .ok report) :
    report.InOrder s ∧
    ∀ {β : Type} [ExactScalar β] (value : α → β),
      (∀ a b, Scalar.isFinite a = true → Scalar.isFinite b = true → a ≤ b → value a ≤ value b) →
      ∀ first last, report.snapshots.head? = some first → report.snapshots.getLast? = some last →
        ∃ v, anytimeValue (report.snapshots.map (.map value)) = some v ∧
          value first.bestValue ≤ v ∧ v ≤ value last.bestValue ∧
          (Scalar.isFinite report.bestValue = true → v ≤ value report.bestValue) := by
  have hOrder := inOrder_of_optimize hEvery hUsage hOptimize
  refine ⟨hOrder, fun {β} _ value hMonotone first last hFirst hLast => ?_⟩
  have hThere := List.mem_of_getLast? hLast
  have hHead : (report.snapshots.map (.map value)).head? = some (first.map value) := by
    rw [List.head?_map, hFirst]
    rfl
  have hTail : (report.snapshots.map (.map value)).getLast? = some (last.map value) := by
    rw [List.getLast?_map, hLast]
    rfl
  -- the values are finite, so reading them keeps their order
  have hRising : report.snapshots.Pairwise fun x y => value x.bestValue ≤ value y.bestValue :=
    hOrder.rising.imp_of_mem fun hx hy => hMonotone _ _ (hOrder.finite _ hx) (hOrder.finite _ hy)
  obtain ⟨v, hMean, hBelow, hAbove⟩ := anytimeValue_between hHead hTail
    (List.pairwise_map.mpr hRising) (List.pairwise_map.mpr (hOrder.increasing.imp Nat.le_of_lt))
    ((period_pos hEvery hOptimize).trans_le (hOrder.above last hThere))
  refine ⟨v, hMean, hBelow, hAbove, fun hFinite => hAbove.trans ?_⟩
  exact hMonotone _ _ (hOrder.finite last hThere) hFinite (hOrder.bounded last hThere)

def recordedSettings : Settings ℚ := { briefSettings with snapshotEvery := some 4 }

/-- A run that takes five snapshots. -/
def recordedRun : Except Failure (Report ℚ Random.SplitMix) :=
  optimize lopsided 20 recordedSettings (.ticking 1) ⟨18⟩

/-- The best value rises from 1 to 5, and the mean lies between the two. -/
theorem optimize_snapshots_lopsided : recordedSettings.snapshotEvery = some 4 ∧
    ∃ report, recordedRun = .ok report ∧ report.evaluations + 4 < Word.size ∧
      report.InOrder 4 ∧ ∃ v, report.anytimeValue = some v ∧ 1 ≤ v ∧ v ≤ 5 := by
  have hEnd : recordedRun.toOption.map (fun report =>
      (report.evaluations, report.snapshots.map (·.bestValue))) =
      some (21, [1, 1, 5, 5, 5]) := by decide +kernel
  obtain ⟨report, hRun, hEnd⟩ := exists_of_toOption_map hEnd
  obtain ⟨hUsed, hValues⟩ := Prod.mk.inj hEnd
  have hUsage : report.evaluations + 4 < Word.size := by
    rw [hUsed]
    decide
  obtain ⟨hOrder, hMean⟩ := optimize_snapshots rfl hUsage hRun
  have hHead := congrArg List.head? hValues
  have hTail := congrArg List.getLast? hValues
  rw [List.head?_map] at hHead
  rw [List.getLast?_map] at hTail
  obtain ⟨first, hFirst, hOne⟩ := Option.map_eq_some_iff.mp hHead
  obtain ⟨last, hLast, hFive⟩ := Option.map_eq_some_iff.mp hTail
  obtain ⟨v, hAnytime, hBelow, hAbove, -⟩ := hMean id (fun _ _ _ _ h => h) first last hFirst hLast
  have hSame : report.snapshots.map (.map id) = report.snapshots := List.map_id _
  rw [hSame] at hAnytime
  exact ⟨rfl, report, hRun, hUsage, hOrder, v, hAnytime, hOne.symm.trans_le hBelow,
    hAbove.trans_eq hFive⟩

end SwapSearch.Memetic
