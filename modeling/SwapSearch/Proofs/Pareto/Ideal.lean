import SwapSearch.Proofs.Pareto.Front
import SwapSearch.Proofs.Scalar.Extended

/-!
# SwapSearch — the ideal point of a history

The ideal point is raised by every well-formed vector that is offered, before anything is
decided about it, and it is never lowered. So it is the componentwise maximum of all offered
vectors. The entries that are retained have the same maximum although most of what was
offered is turned away or evicted: when every solution keeps its vector, whatever has been
offered is weakly dominated by a retained entry, and that entry has been offered itself.

Components are compared as numbers. Where several offered components are the largest the
ideal point holds the last of them, which may differ from the others in the sign of a zero.

## Results

* `Archive.ideal_offered` — what an offer does to the ideal point.
* `raised_run`            — the ideal point after a history is the maximum of what was offered.
* `Raised.retained`       — and the maximum of what is retained.
* `ideal_eq_maximum`      — both, for an archive of any size.
-/

namespace SwapSearch.Pareto

variable {α : Type} [Scalar α]

-- ---------------------------------------------------------------------------
-- What an offer does to the ideal point
-- ---------------------------------------------------------------------------

namespace Archive

theorem ideal_empty {d capacity : Nat} {a : Archive α} (h : Archive.empty d capacity = .ok a) :
    a.ideal = List.replicate d Scalar.negInf := by
  unfold Archive.empty at h
  split at h
  · exact nomatch h
  · split at h
    · exact nomatch h
    · obtain rfl := Except.ok.inj h
      rfl

theorem ideal_offer (a : Archive α) (entry : Entry α) : (a.offer entry).2.ideal = a.ideal := by
  unfold Archive.offer
  split
  · rfl
  · dsimp only
    split <;> rfl

/-- A well-formed vector raises the ideal point, whatever becomes of it. -/
theorem ideal_offered {a : Archive α} {entry : Entry α} (h : IsPoint a.dimensions entry.vector) :
    (a.offered entry).2.ideal = List.zipWith Scalar.larger a.ideal entry.vector := by
  have hValid : a.requireVector entry.vector = .ok () := by
    unfold Archive.requireVector Pareto.requireVector
    rw [if_neg (not_not_intro h.1), if_pos (List.all_eq_true.mpr h.2)]
  unfold Archive.offered
  rw [Archive.insert_of_ok hValid]
  cases a.find? entry.solution with
  | none => exact ideal_offer _ _
  | some previous =>
    cases hSame : Scalar.sameVector previous.vector entry.vector with
    | true => simp only [hSame, settle, if_true, raiseIdeal]
    | false =>
      simp only [hSame, settle, Bool.false_eq_true, if_false]
      exact ideal_offer _ _

end Archive

-- ---------------------------------------------------------------------------
-- Peaks
-- ---------------------------------------------------------------------------

/-- The value is the largest of the components `k` of the entries. -/
structure IsPeak (k : Nat) (entries : List (Entry α)) (c : α) : Prop where
  attained : ∃ e ∈ entries, ∃ x, e.vector[k]? = some x ∧ (x == c) = true
  bound : ∀ e ∈ entries, ∀ x, e.vector[k]? = some x → x ≤ c

/-- The ideal point after a history: negative infinity in all components at first, later their
peaks. -/
structure Raised (d : Nat) (offers : List (Entry α)) (ideal : List α) : Prop where
  length_eq : ideal.length = d
  fresh : offers = [] → ∀ c ∈ ideal, c = Scalar.negInf
  peak : offers ≠ [] → ∀ k c, ideal[k]? = some c → IsPeak k offers c

section Peak

variable [OrderedScalar α] {d k : Nat} {offers roster : List (Entry α)} {e : Entry α} {c x : α}

/-- A peak is a number, since it equals one of the components. -/
theorem IsPeak.isNaN_eq_false (h : IsPeak k offers c) : Scalar.isNaN c = false := by
  obtain ⟨e, -, x, -, hEq⟩ := h.attained
  obtain ⟨hxc, hcx⟩ := OrderedScalar.beq_iff_le_le.mp hEq
  have hSelf : c ≤ c := OrderedScalar.le_trans hcx hxc
  have hBeq : (c == c) = true := OrderedScalar.beq_iff_le_le.mpr ⟨hSelf, hSelf⟩
  simp [Scalar.isNaN, hBeq]

/-- The only component is the peak. -/
theorem isPeak_singleton (hx : e.vector[k]? = some x) (hFinite : Scalar.isFinite x = true) :
    IsPeak k [e] x := by
  have hSelf := OrderedScalar.le_self_of_isFinite hFinite
  refine ⟨⟨e, List.mem_singleton_self e, x, hx, OrderedScalar.beq_iff_le_le.mpr ⟨hSelf, hSelf⟩⟩, ?_⟩
  intro e' he' y hy
  obtain rfl := List.mem_singleton.mp he'
  obtain rfl := Option.some.inj (hx.symm.trans hy)
  exact hSelf

/-- A further component raises the peak. -/
theorem IsPeak.raise (h : IsPeak k offers c) (hx : e.vector[k]? = some x)
    (hFinite : Scalar.isFinite x = true) : IsPeak k (offers ++ [e]) (Scalar.larger c x) := by
  have hNumber := OrderedScalar.isNaN_of_isFinite hFinite
  have hLeft : c ≤ Scalar.larger c x := Scalar.le_larger_left h.isNaN_eq_false
  have hRight : x ≤ Scalar.larger c x := Scalar.le_larger_right hNumber
  constructor
  · rcases Scalar.larger_cases c x with hSecond | ⟨hFirst, -, -⟩
    · rw [hSecond] at hRight ⊢
      exact ⟨e, by simp, x, hx, OrderedScalar.beq_iff_le_le.mpr ⟨hRight, hRight⟩⟩
    · obtain ⟨e', he', y, hy, hEq⟩ := h.attained
      rw [hFirst]
      exact ⟨e', List.mem_append_left _ he', y, hy, hEq⟩
  · intro e' he' y hy
    rcases List.mem_append.mp he' with he' | he'
    · exact OrderedScalar.le_trans (h.bound e' he' y hy) hLeft
    · obtain rfl := List.mem_singleton.mp he'
      obtain rfl := Option.some.inj (hx.symm.trans hy)
      exact hRight

/-- What covers all offers and was offered itself has the peaks of the offers. -/
theorem IsPeak.retained (h : IsPeak k offers c) (hConsistent : Consistent d offers)
    (hFront : Front offers roster) : IsPeak k roster c := by
  refine ⟨?_, fun e he x hx => h.bound e (hFront.mem_offers he) x hx⟩
  obtain ⟨e, he, x, hx, hEq⟩ := h.attained
  obtain ⟨cover, hCover, hWeak⟩ := hFront.covered e he
  have hOffered := hFront.mem_offers hCover
  obtain ⟨y, hy⟩ :=
    (hConsistent.points e he).exists_component (hConsistent.points cover hOffered) hx
  have hAbove : x ≤ y := weaklyDominates_iff.mp hWeak k y x hy hx
  have hPeak : c ≤ y := OrderedScalar.le_trans (OrderedScalar.beq_iff_le_le.mp hEq).2 hAbove
  exact ⟨cover, hCover, y, hy,
    OrderedScalar.beq_iff_le_le.mpr ⟨h.bound cover hOffered y hy, hPeak⟩⟩

end Peak

-- ---------------------------------------------------------------------------
-- Histories
-- ---------------------------------------------------------------------------

section History

variable [OrderedScalar α] [ExtendedScalar α] {d : Nat} {offers : List (Entry α)}

/-- One more vector raises every peak, and the first one is the peak itself. -/
theorem Raised.raise {ideal : List α} {entry : Entry α} (h : Raised d offers ideal)
    (hPoint : IsPoint d entry.vector) :
    Raised d (offers ++ [entry]) (List.zipWith Scalar.larger ideal entry.vector) where
  length_eq := by rw [List.length_zipWith, h.length_eq, hPoint.1, Nat.min_self]
  fresh hNone := absurd hNone (by simp)
  peak _ k c hc := by
    obtain ⟨b, x, hb, hx, rfl⟩ := List.getElem?_zipWith_eq_some.mp hc
    have hFinite := hPoint.isFinite hx
    by_cases hFirst : offers = []
    · obtain rfl := h.fresh hFirst b (List.mem_of_getElem? hb)
      have hBelow : (Scalar.negInf : α) ≤ x :=
        OrderedScalar.le_of_lt (ExtendedScalar.negInf_lt hFinite)
      rw [hFirst, Scalar.larger_of_le hBelow]
      exact isPeak_singleton hx hFinite
    · exact (h.peak hFirst k b hb).raise hx hFinite

/-- The ideal point holds the peaks of all that was offered, whatever has been offered before. -/
theorem raised_run {a : Archive α} {done roster : List (Entry α)} (rest : List (Entry α))
    (hPoints : ∀ x ∈ rest, IsPoint d x.vector) (hArchive : Represents d a roster)
    (h : Raised d done a.ideal) : Raised d (done ++ rest) (a.run rest).2.ideal := by
  induction rest generalizing a done roster with
  | nil =>
    rw [List.append_nil]
    exact h
  | cons entry rest ih =>
    obtain ⟨hPoint, hPoints⟩ := List.forall_mem_cons.mp hPoints
    have hNext : Raised d (done ++ [entry]) (a.offered entry).2.ideal := by
      rw [Archive.ideal_offered (hArchive.dimensions ▸ hPoint)]
      exact h.raise hPoint
    rw [List.append_cons]
    exact ih hPoints (represents_offered hArchive entry).2 hNext

/-- **The ideal point is the maximum.** After a history in which each solution always carries the
same vector, every component of the ideal point is the largest among all offered vectors, and
the largest among the retained ones. -/
theorem ideal_eq_maximum {capacity : Nat} (hDimensions : 1 ≤ d ∧ d ≤ 64)
    (hCapacity : 1 ≤ capacity) (hConsistent : Consistent d offers) (hSome : offers ≠ []) :
    ∃ empty : Archive α, Archive.empty d capacity = .ok empty ∧
      let a := (empty.run offers).2
      a.ideal.length = d ∧ ∀ k c, a.ideal[k]? = some c →
        IsPeak k a.entries c ∧ IsPeak k offers c := by
  obtain ⟨empty, hEmpty, hFront⟩ := exists_front hDimensions hCapacity hConsistent
  obtain ⟨empty', hEmpty', hStart⟩ := exists_empty (α := α) hDimensions hCapacity
  obtain rfl := Except.ok.inj (hEmpty.symm.trans hEmpty')
  have hFresh : Raised d [] empty.ideal := by
    rw [Archive.ideal_empty hEmpty]
    exact ⟨List.length_replicate, fun _ c hc => List.eq_of_mem_replicate hc, fun h => absurd rfl h⟩
  have hRaised := raised_run offers hConsistent.points hStart hFresh
  rw [List.nil_append] at hRaised
  refine ⟨empty, hEmpty, hRaised.length_eq, fun k c hc => ?_⟩
  have hPeak := hRaised.peak hSome k c hc
  exact ⟨hPeak.retained hConsistent hFront, hPeak⟩

theorem ideal_eq_maximum_of_three :
    let offers : List (Entry Float) :=
      [⟨.identity 3, [1, 2]⟩, ⟨(Permutation.identity 3).swap 0 1, [2, -1]⟩,
        ⟨(Permutation.identity 3).swap 1 2, [3, -1]⟩]
    (1 ≤ 2 ∧ 2 ≤ 64) ∧ 1 ≤ 1 ∧ Consistent 2 offers ∧ offers ≠ [] ∧
    ∃ empty : Archive Float, Archive.empty 2 1 = .ok empty ∧
      let a := (empty.run offers).2
      a.ideal.length = 2 ∧ ∀ k c, a.ideal[k]? = some c →
        IsPeak k a.entries c ∧ IsPeak k offers c :=
  ⟨by decide, by decide, by decide, by decide,
    ideal_eq_maximum (by decide) (by decide) (by decide) (by decide)⟩

end History

end SwapSearch.Pareto
