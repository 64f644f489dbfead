import SwapSearch.Proofs.Memetic.Chronicle

/-!
# SwapSearch — what a report says

The report of a run names a best solution, its vector and its value, and hands out the
archive. In exact arithmetic they agree with one another and with the local searches of
the run, whichever of them came first and in whatever order their results reached the
archive and the best member.

The reason that the vector of the best solution is in the archive is that the mean
respects dominance: a vector that dominates another has the larger mean, so nothing
dominates a vector of the largest mean.

## Results

* `mean_lt_mean_of_dominates` — a dominating vector has the larger mean.
* `Chronicled.front`          — the archive is the front of what has been offered.
* `optimize_sound`            — a report is sound.
-/

namespace SwapSearch.Memetic

-- ---------------------------------------------------------------------------
-- Vectors
-- ---------------------------------------------------------------------------

section Vectors

variable {α : Type} [ExactScalar α] {a b : List α}

theorem isPoint_of_length {d : Nat} (hLength : a.length = d) : Pareto.IsPoint d a :=
  ⟨hLength, fun x _ => ExactScalar.isFinite_eq_true x⟩

theorem sameVector_iff_eq : Scalar.sameVector a b = true ↔ a = b := by
  have : LawfulBEq α :=
    { eq_of_beq := fun {x y} => (ExactScalar.beq_iff_eq x y).mp
      rfl := fun {x} => (ExactScalar.beq_iff_eq x x).mpr rfl }
  exact beq_iff_eq

theorem mean_singleton (x : α) : Scalar.mean [x] = x := by
  unfold Scalar.mean
  rw [WeightedSum.scalarSum_eq, List.sum_singleton, List.length_singleton, Nat.cast_one, div_one]

/-- A vector that dominates another has the larger mean. -/
theorem mean_lt_mean_of_dominates (hLength : a.length = b.length)
    (hDominates : Pareto.dominates a b = true) : Scalar.mean b < Scalar.mean a := by
  have ha : Pareto.IsPoint b.length a := isPoint_of_length hLength
  have hb : Pareto.IsPoint b.length b := isPoint_of_length rfl
  obtain ⟨hWeak, hNot⟩ := (ha.dominates_iff hb).mp hDominates
  have hBetter : Pareto.betterSomewhere a b = true := by
    rw [ha.betterSomewhere_eq hb, hNot]
    rfl
  obtain ⟨pair, hPair, hLt⟩ := List.any_eq_true.mp hBetter
  -- at least as large everywhere and larger somewhere
  have hSum : ((a.zip b).map Prod.snd).sum < ((a.zip b).map Prod.fst).sum := by
    refine List.sum_lt_sum _ _ (fun pair hPair => ?_) ⟨pair, hPair, of_decide_eq_true hLt⟩
    exact of_decide_eq_true (List.all_eq_true.mp hWeak pair hPair)
  rw [List.map_snd_zip (Nat.le_of_eq hLength.symm), List.map_fst_zip (Nat.le_of_eq hLength)]
    at hSum
  have hPositive : 0 < b.length := by
    rw [← hLength]
    exact List.length_pos_of_mem (List.of_mem_zip hPair).1
  unfold Scalar.mean
  rw [WeightedSum.scalarSum_eq, WeightedSum.scalarSum_eq, hLength]
  exact div_lt_div_of_pos_right hSum (Nat.cast_pos.mpr hPositive)

/-- Nothing dominates a vector of the largest mean. -/
theorem onFront_of_mean_le {d : Nat} {offers : List (Pareto.Entry α)} (hLength : a.length = d)
    (hLengths : ∀ e ∈ offers, e.vector.length = d)
    (hGreatest : ∀ e ∈ offers, Scalar.mean e.vector ≤ Scalar.mean a) :
    Pareto.OnFront offers a := by
  intro e he
  refine Bool.eq_false_iff.mpr fun hDominates => ?_
  have hLt := mean_lt_mean_of_dominates ((hLengths e he).trans hLength.symm) hDominates
  exact absurd (hGreatest e he) (not_le.mpr hLt)

/-- Of two vectors with a single component the one with the larger mean dominates. -/
theorem eq_of_dominates_eq_false (ha : a.length = 1) (hb : b.length = 1)
    (hMean : Scalar.mean a ≤ Scalar.mean b) (hNot : Pareto.dominates b a = false) : a = b := by
  obtain ⟨x, rfl⟩ := List.length_eq_one_iff.mp ha
  obtain ⟨y, rfl⟩ := List.length_eq_one_iff.mp hb
  rw [mean_singleton, mean_singleton] at hMean
  have hNotLt : ¬ x < y := by
    intro hLt
    have hDominates : Pareto.dominates [y] [x] = true := by
      unfold Pareto.dominates Pareto.dominance Pareto.betterSomewhere
      simp [hLt, hLt.not_gt]
    exact Bool.noConfusion (hNot.symm.trans hDominates)
  rw [hMean.eq_of_not_lt hNotLt]

/-- With a single component the front has one vector, that of the largest mean. -/
theorem eq_of_onFront {offers : List (Pareto.Entry α)}
    (hLengths : ∀ e ∈ offers, e.vector.length = 1)
    (hGreatest : ∀ e ∈ offers, Scalar.mean e.vector ≤ Scalar.mean b)
    (hBest : ∃ e ∈ offers, e.vector = b) (hOffered : ∃ e ∈ offers, e.vector = a)
    (hOn : Pareto.OnFront offers a) : a = b := by
  obtain ⟨best, hBest, rfl⟩ := hBest
  obtain ⟨e, he, rfl⟩ := hOffered
  exact eq_of_dominates_eq_false (hLengths e he) (hLengths best hBest) (hGreatest e he)
    (hOn best hBest)

/-- The mean of values above negative infinity lies above it. -/
theorem negInf_lt_mean (hNonempty : a ≠ []) (hAbove : ∀ x ∈ a, Scalar.negInf < x) :
    Scalar.negInf < Scalar.mean a := by
  have hSum := List.sum_lt_sum_of_ne_nil hNonempty (fun _ => Scalar.negInf) id hAbove
  rw [List.map_const', List.sum_replicate, List.map_id, nsmul_eq_mul, mul_comm] at hSum
  have hPositive : (0 : α) < a.length := Nat.cast_pos.mpr (List.length_pos_iff.mpr hNonempty)
  unfold Scalar.mean
  rw [WeightedSum.scalarSum_eq]
  exact (lt_div_iff₀ hPositive).mpr hSum

end Vectors

-- ---------------------------------------------------------------------------
-- The archive of a chronicle
-- ---------------------------------------------------------------------------

namespace Made

variable {α : Type} [Scalar α] {objectives : List (Objective α)} {i : Improvement α}

theorem solution_eq (h : Made objectives i) : i.member.solution = i.outcome.solution :=
  congrArg Member.solution h.member

theorem fitness_eq (h : Made objectives i) : i.member.fitness = Scalar.mean i.member.vector :=
  congrArg Member.fitness h.member

end Made

namespace Chronicled

variable {α : Type} [ExactScalar α] {objectives : List (Objective α)} {a₀ : Pareto.Archive α}
  {least capacity : Nat} {g : Chronicle α}

/-- What has been offered is made of points, the same for the same solution. -/
theorem consistent (h : Chronicled objectives a₀ least [] g) :
    Pareto.Consistent objectives.length (g.improved.map Improvement.entry) where
  points := by
    refine List.forall_mem_map.mpr fun i hi => isPoint_of_length ?_
    exact evaluateAll_length (h.made i hi).vector
  same := by
    refine List.forall_mem_map.mpr fun i hi => List.forall_mem_map.mpr fun j hj hEq => ?_
    have hSolution : i.outcome.solution = j.outcome.solution := hEq
    have hThere := (h.made j hj).vector
    rw [← hSolution, (h.made i hi).vector] at hThere
    exact sameVector_iff_eq.mpr (Except.ok.inj hThere)

/-- The archive is the front of what has been offered, in the order of the offers. -/
theorem front (h : Chronicled objectives a₀ least [] g)
    (hEmpty : Pareto.Archive.empty objectives.length capacity = .ok a₀) :
    Pareto.Front (g.improved.reverse.map Improvement.entry) g.archive.entries := by
  -- the archive could be made, so its sizes are in range
  have hBounds : (1 ≤ objectives.length ∧ objectives.length ≤ 64) ∧ 1 ≤ capacity := by
    unfold Pareto.Archive.empty at hEmpty
    split at hEmpty
    · exact nomatch hEmpty
    · split at hEmpty
      · exact nomatch hEmpty
      · omega
  have hPerm := (List.reverse_perm g.improved).map Improvement.entry
  obtain ⟨empty, hEmpty', hFront⟩ :=
    Pareto.exists_front hBounds.1 hBounds.2 (h.consistent.perm hPerm)
  obtain rfl := Except.ok.inj (hEmpty.symm.trans hEmpty')
  rw [h.archive_eq]
  exact hFront

/-- Once a local search has been made, the best member comes from one and beats them all. -/
theorem exists_best (h : Chronicled objectives a₀ 1 [] g) {n : Nat}
    (hSizes : ∀ o ∈ objectives, o.size = n)
    (hAbove : ∀ o ∈ objectives, ∀ (p : Permutation) v, p.size = o.size →
      o.evaluate p.values = .ok v → Scalar.negInf < v)
    (hNonempty : objectives ≠ []) :
    (∃ i ∈ g.improved, g.best = i.member) ∧
      ∀ i ∈ g.improved, Scalar.mean i.member.vector ≤ g.best.fitness := by
  have hGreatest : ∀ i ∈ g.improved, Scalar.mean i.member.vector ≤ g.best.fitness := by
    intro i hi
    rw [← (h.made i hi).fitness_eq]
    exact (h.settled i hi).resolve_left List.not_mem_nil
  refine ⟨h.best.resolve_left fun hNone => ?_, hGreatest⟩
  obtain ⟨i, hi⟩ := List.exists_mem_of_length_pos h.count
  have hVector := (h.made i hi).vector
  have hLength := evaluateAll_length hVector
  have hSize : i.outcome.solution.size = n :=
    ((h.made i hi).size _ (List.head?_eq_some_head hNonempty)).trans
      (hSizes _ (List.head_mem hNonempty))
  -- a member that is still the initial one would be below the first improvement
  have hMean : Scalar.negInf < Scalar.mean i.member.vector := by
    refine negInf_lt_mean (fun hNil => hNonempty ?_) fun x hx => ?_
    · rw [hNil] at hLength
      exact List.length_eq_zero_iff.mp hLength.symm
    · obtain ⟨k, hk, rfl⟩ := List.mem_iff_getElem.mp hx
      have hk' : k < objectives.length := by rwa [← hLength]
      exact hAbove _ (List.getElem_mem hk') _ _
        (hSize.trans (hSizes _ (List.getElem_mem hk')).symm)
        ((forall₂_of_mapM hVector).get hk' hk)
  exact absurd (hNone ▸ hGreatest i hi) (not_le.mpr hMean)

end Chronicled

-- ---------------------------------------------------------------------------
-- Reports
-- ---------------------------------------------------------------------------

/-- The solutions that the local searches of the run returned, with their vectors. -/
def Report.returned {α ρ : Type} [Scalar α] (r : Report α ρ) : List (Pareto.Entry α) :=
  r.run.improved.map Improvement.entry

/-- A report agrees with itself, with the objectives, and with what the local searches
returned. -/
structure Report.Sound {α ρ : Type} [Scalar α] (objectives : List (Objective α))
    (r : Report α ρ) : Prop where
  /-- A solution that was returned goes with the values of the objectives there. -/
  evaluated : ∀ e ∈ r.returned, evaluateAll objectives e.solution = .ok e.vector
  bestVector : evaluateAll objectives r.best = .ok r.bestVector
  bestValue : r.bestValue = Scalar.mean r.bestVector
  /-- The best solution was returned, and no other has a larger mean. -/
  attained : ∃ e ∈ r.returned, e.solution = r.best ∧ e.vector = r.bestVector
  greatest : ∀ e ∈ r.returned, Scalar.mean e.vector ≤ r.bestValue
  /-- The archive retains the front of the vectors, each once. -/
  front : ∀ v, (∃ e ∈ r.archive.entries, e.vector = v) ↔
    (∃ e ∈ r.returned, e.vector = v) ∧ Pareto.OnFront r.returned v
  distinct : (r.archive.entries.map (·.vector)).Nodup
  /-- The vector of the best solution is among them; a single objective leaves no other. -/
  retained : ∃ e ∈ r.archive.entries, e.vector = r.bestVector
  single : objectives.length = 1 → ∃ e, r.archive.entries = [e] ∧ e.vector = [r.bestValue]

/-- Distinct values that are all equal are one value. -/
theorem eq_singleton_of_nodup {β γ : Type} {f : β → γ} {c : γ} {xs : List β}
    (hDistinct : (xs.map f).Nodup) (hSome : ∃ x ∈ xs, f x = c) (hAll : ∀ x ∈ xs, f x = c) :
    ∃ x, xs = [x] ∧ f x = c := by
  match xs with
  | [] => exact nomatch hSome.choose_spec.1
  | [x] => exact ⟨x, rfl, hAll x (by simp)⟩
  | x :: y :: _ =>
    have hEq : f x = f y := (hAll x (by simp)).trans (hAll y (by simp)).symm
    exact absurd hEq (List.rel_of_pairwise_cons hDistinct (by simp))

section Reports

variable {α ρ : Type} [ExactScalar α] {objectives : List (Objective α)} {a₀ : Pareto.Archive α}
  {capacity : Nat} {report : Report α ρ}

/-- The archive of a report retains the front of the vectors, each once. -/
theorem archive_of_chronicled
    (h : Chronicled objectives a₀ 1 [] report.run.chronicle)
    (hEmpty : Pareto.Archive.empty objectives.length capacity = .ok a₀) :
    (∀ v, (∃ e ∈ report.archive.entries, e.vector = v) ↔
      (∃ e ∈ report.returned, e.vector = v) ∧ Pareto.OnFront report.returned v) ∧
    (report.archive.entries.map (·.vector)).Nodup := by
  have hConsistent : Pareto.Consistent objectives.length report.returned := h.consistent
  -- improvements are noted last first, and the front does not depend on the order
  have hPerm : (report.run.improved.reverse.map Improvement.entry).Perm report.returned :=
    (List.reverse_perm _).map _
  have hOffered := hConsistent.perm hPerm
  have hFront : Pareto.Front (report.run.improved.reverse.map Improvement.entry)
      report.archive.entries := h.front hEmpty
  refine ⟨fun v => ⟨?_, ?_⟩, ?_⟩
  · rintro ⟨e, he, rfl⟩
    exact ⟨⟨e, hPerm.mem_iff.mp (hFront.mem_offers he), rfl⟩,
      (hFront.onFront hOffered he).perm hPerm.symm⟩
  · rintro ⟨⟨x, hx, rfl⟩, hOn⟩
    obtain ⟨e, he, hSame⟩ :=
      hFront.exists_retained hOffered (hPerm.mem_iff.mpr hx) (hOn.perm hPerm)
    exact ⟨e, he, sameVector_iff_eq.mp hSame⟩
  · refine List.pairwise_map.mpr ((hFront.pairwise_not_sameVector hOffered).imp ?_)
    intro x y hApart hEq
    rw [sameVector_iff_eq.mpr hEq] at hApart
    exact Bool.noConfusion hApart

variable [RandomSource ρ]

/-- **A report is sound.** Whatever the settings, the budget, the clock and the random source are:
if a run succeeds, its best solution has the largest mean of all that local searches returned,
and the archive retains their front. -/
theorem optimize_sound {evaluations : Nat} {settings : Settings α} {clock : Clock} {random : ρ}
    (hContract : ∀ o ∈ objectives, ∃ f, HonoursGains f o)
    (hAbove : ∀ o ∈ objectives, ∀ (p : Permutation) v, p.size = o.size →
      o.evaluate p.values = .ok v → Scalar.negInf < v)
    (hOptimize : optimize objectives evaluations settings clock random = .ok report) :
    report.Sound objectives := by
  obtain ⟨⟨n, hSizes⟩, a₀, hEmpty, hChronicled⟩ := chronicled_optimize hContract hOptimize
  have hNonempty : objectives ≠ [] := by
    rintro rfl
    exact nomatch hEmpty
  obtain ⟨⟨i, hi, hBest⟩, hGreatest⟩ := hChronicled.exists_best hSizes hAbove hNonempty
  obtain ⟨hFront, hDistinct⟩ := archive_of_chronicled hChronicled hEmpty
  -- the best member is one of the improvements, made by a local search
  have hMade := hChronicled.made i hi
  have hMember : report.run.best = i.member := hBest
  have hSolution : report.best = i.outcome.solution :=
    (congrArg Member.solution hMember).trans hMade.solution_eq
  have hVector : report.bestVector = i.member.vector := congrArg Member.vector hMember
  have hValue : report.bestValue = Scalar.mean report.bestVector := by
    rw [hVector, ← hMade.fitness_eq]
    exact congrArg Member.fitness hMember
  have hEvaluated : ∀ e ∈ report.returned, evaluateAll objectives e.solution = .ok e.vector :=
    List.forall_mem_map.mpr fun k hk => (hChronicled.made k hk).vector
  have hGreatest' : ∀ e ∈ report.returned, Scalar.mean e.vector ≤ report.bestValue :=
    List.forall_mem_map.mpr hGreatest
  have hReturned : i.entry ∈ report.returned := List.mem_map_of_mem hi
  have hLength : ∀ e ∈ report.returned, e.vector.length = objectives.length :=
    fun e he => evaluateAll_length (hEvaluated e he)
  have hBestReturned : ∃ e ∈ report.returned, e.vector = report.bestVector :=
    ⟨i.entry, hReturned, hVector.symm⟩
  have hLengthBest : report.bestVector.length = objectives.length := by
    rw [hVector]
    exact hLength _ hReturned
  -- no returned vector dominates one with the largest mean
  have hOn := onFront_of_mean_le hLengthBest hLength (hValue ▸ hGreatest')
  have hRetained := (hFront report.bestVector).mpr ⟨hBestReturned, hOn⟩
  refine ⟨hEvaluated, ?_, hValue, ⟨i.entry, hReturned, hSolution.symm, hVector.symm⟩, hGreatest',
    hFront, hDistinct, hRetained, fun hOne => ?_⟩
  · rw [hSolution, hVector]
    exact hMade.vector
  · rw [hOne] at hLength hLengthBest
    -- vectors of one value are comparable, so the front is that of the best
    have hSingle : [report.bestValue] = report.bestVector := by
      obtain ⟨y, hy⟩ := List.length_eq_one_iff.mp hLengthBest
      rw [hValue, hy, mean_singleton]
    rw [hSingle]
    refine eq_singleton_of_nodup hDistinct hRetained fun e he => ?_
    obtain ⟨hOffered, hOnFront⟩ := (hFront e.vector).mp ⟨e, he, rfl⟩
    exact eq_of_onFront hLength (hValue ▸ hGreatest') hBestReturned hOffered hOnFront

end Reports

/-- Two objectives at odds: each wants the largest item at a position of its own. -/
def rivals : List (Objective ℚ) :=
  [.ofEvaluation 3 fun values => .ok (values.getD 0 0 : ℚ),
    .ofEvaluation 3 fun values => .ok (values.getD 1 0 : ℚ)]

def briefSettings : Settings ℚ :=
  { Settings.default with populationSize := 2, improvementDepth := 1, tournamentSize := 1 }

/-- Seeds two members and breeds a child. -/
def briefRun : Except Failure (Report ℚ Random.SplitMix) :=
  optimize rivals 20 briefSettings (.ticking 1) ⟨7⟩

theorem optimize_sound_rivals :
    (∀ o ∈ rivals, ∃ f, HonoursGains f o) ∧
    (∀ o ∈ rivals, ∀ (p : Permutation) v, p.size = o.size → o.evaluate p.values = .ok v →
      Scalar.negInf < v) ∧
    ∃ report, briefRun = .ok report ∧ report.Sound rivals := by
  have hContract : ∀ o ∈ rivals, ∃ f, HonoursGains f o := by
    refine List.forall_mem_cons.mpr ⟨⟨fun p => (p.values.getD 0 0 : ℚ), ?_⟩,
      List.forall_mem_singleton.mpr ⟨fun p => (p.values.getD 1 0 : ℚ), ?_⟩⟩
    · exact honoursGains_ofEvaluation fun _ _ => rfl
    · exact honoursGains_ofEvaluation fun _ _ => rfl
  have hBelow : (Scalar.negInf : ℚ) < 0 := by decide +kernel
  have hAbove : ∀ o ∈ rivals, ∀ (p : Permutation) v, p.size = o.size →
      o.evaluate p.values = .ok v → Scalar.negInf < v := by
    refine List.forall_mem_cons.mpr ⟨?_, List.forall_mem_singleton.mpr ?_⟩
    · rintro p v - hValue
      obtain rfl := Except.ok.inj hValue
      exact hBelow.trans_le (Nat.cast_nonneg _)
    · rintro p v - hValue
      obtain rfl := Except.ok.inj hValue
      exact hBelow.trans_le (Nat.cast_nonneg _)
  have hOk : briefRun.toOption.isSome = true := by decide +kernel
  refine ⟨hContract, hAbove, ?_⟩
  cases hRun : briefRun with
  | error e =>
    rw [hRun] at hOk
    exact nomatch hOk
  | ok report => exact ⟨report, rfl, optimize_sound hContract hAbove hRun⟩

end SwapSearch.Memetic
