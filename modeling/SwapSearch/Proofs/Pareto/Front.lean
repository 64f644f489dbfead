import SwapSearch.Proofs.Pareto.Roster

/-!
# SwapSearch — the Pareto front of a history

When every solution keeps its vector, the order of the offers hardly matters: the
archive ends up with the Pareto front of all offered vectors, each once, under the
solution that was offered with it first. Only which of several equal vectors
survives depends on the order.

It is enough to argue about rosters. The invariant `Front` says that the entries of
the roster are pairwise incomparable, that each was the first offered with its
vector, and that together they weakly dominate whatever has been offered. An entry
that was evicted or turned away earlier is no exception to the last clause: the
newcomer that replaced it weakly dominates it, and so does whatever replaces the
newcomer.

## Results

* `front_offered`    — an offer preserves the invariant.
* `Front.mem_iff`    — the roster is the front, each vector under its first solution.
* `entries_eq_front` — so is the archive, for any order and any capacity.
-/

namespace SwapSearch.Pareto

variable {α : Type} [Scalar α]

/-- Well-formed offers in which each solution always carries the same vector. -/
structure Consistent (d : Nat) (offers : List (Entry α)) : Prop where
  points : ∀ x ∈ offers, IsPoint d x.vector
  same : ∀ x ∈ offers, ∀ y ∈ offers, x.solution = y.solution →
    Scalar.sameVector x.vector y.vector = true

instance (d : Nat) (offers : List (Entry α)) : Decidable (Consistent d offers) :=
  decidable_of_iff ((∀ x ∈ offers, IsPoint d x.vector) ∧ ∀ x ∈ offers, ∀ y ∈ offers,
      x.solution = y.solution → Scalar.sameVector x.vector y.vector = true)
    ⟨fun h => ⟨h.1, h.2⟩, fun h => ⟨h.points, h.same⟩⟩

/-- No offered vector dominates this one. -/
def OnFront (offers : List (Entry α)) (v : List α) : Prop :=
  ∀ x ∈ offers, dominates x.vector v = false

/-- The first offer of a vector. -/
def firstWith (offers : List (Entry α)) (v : List α) : Option (Entry α) :=
  offers.find? fun x => Scalar.sameVector x.vector v

/-- The roster after a history of offers. -/
structure Front (offers roster : List (Entry α)) : Prop where
  first : ∀ e ∈ roster, firstWith offers e.vector = some e
  covered : ∀ x ∈ offers, ∃ e ∈ roster, weaklyDominates e.vector x.vector = true
  antichain : Antichain roster

theorem Consistent.perm {d : Nat} {offers offers' : List (Entry α)} (h : Consistent d offers)
    (hPerm : offers'.Perm offers) : Consistent d offers' where
  points x hx := h.points x (hPerm.mem_iff.mp hx)
  same x hx y hy := h.same x (hPerm.mem_iff.mp hx) y (hPerm.mem_iff.mp hy)

theorem OnFront.perm {offers offers' : List (Entry α)} {v : List α} (h : OnFront offers v)
    (hPerm : offers'.Perm offers) : OnFront offers' v :=
  fun x hx => h x (hPerm.mem_iff.mp hx)

theorem Front.mem_offers {offers roster : List (Entry α)} (h : Front offers roster)
    {e : Entry α} (he : e ∈ roster) : e ∈ offers :=
  List.mem_of_find?_eq_some (h.first e he)

theorem Front.perm {offers roster roster' : List (Entry α)} (h : Front offers roster)
    (hPerm : roster.Perm roster') : Front offers roster' where
  first e he := h.first e (hPerm.mem_iff.mpr he)
  covered x hx := by
    obtain ⟨e, he, hCover⟩ := h.covered x hx
    exact ⟨e, hPerm.mem_iff.mp he, hCover⟩
  antichain := h.antichain.perm hPerm

/-- Two entries of which one weakly dominates the other are the same entry. -/
theorem Front.eq_of_weaklyDominates {offers roster : List (Entry α)}
    (h : Front offers roster) {c e : Entry α} (hc : c ∈ roster) (he : e ∈ roster)
    (hWeak : weaklyDominates c.vector e.vector = true) : c = e := by
  obtain ⟨i, hi, rfl⟩ := List.mem_iff_getElem.mp hc
  obtain ⟨j, hj, rfl⟩ := List.mem_iff_getElem.mp he
  have hPairs := List.pairwise_iff_getElem.mp h.antichain
  rcases Nat.lt_trichotomy i j with hLt | rfl | hGt
  · exact absurd ((hPairs i j hi hj hLt).1.symm.trans hWeak) Bool.false_ne_true
  · rfl
  · exact absurd ((hPairs j i hj hi hGt).2.symm.trans hWeak) Bool.false_ne_true

/-- An offer that is covered already leaves the roster as it is. -/
theorem Front.offered_covered {offers roster : List (Entry α)} {x : Entry α}
    (h : Front offers roster)
    (hCovered : ∃ e ∈ roster, weaklyDominates e.vector x.vector = true) :
    Front (offers ++ [x]) roster where
  first e he := by
    unfold firstWith
    rw [List.find?_append]
    exact congrArg (Option.or · _) (h.first e he)
  covered y hy := by
    rcases List.mem_append.mp hy with hy | hy
    · exact h.covered y hy
    · obtain rfl := List.mem_singleton.mp hy
      exact hCovered
  antichain := h.antichain

variable [OrderedScalar α] {d : Nat}

-- ---------------------------------------------------------------------------
-- One offer
-- ---------------------------------------------------------------------------

section Step

variable {offers roster : List (Entry α)} {x : Entry α}

/-- An offer that is not covered is the first with its vector, and covers what it evicts. -/
theorem Front.offered_uncovered (hConsistent : Consistent d (offers ++ [x]))
    (h : Front offers roster)
    (hUncovered : ∀ e ∈ roster, weaklyDominates e.vector x.vector = false) :
    Front (offers ++ [x]) (x :: roster.filter fun e => !dominates x.vector e.vector) := by
  have hPointX : IsPoint d x.vector := hConsistent.points x (by simp)
  have hPoint : ∀ y ∈ offers, IsPoint d y.vector :=
    fun y hy => hConsistent.points y (List.mem_append_left _ hy)
  have hPointRoster : ∀ e ∈ roster, IsPoint d e.vector := fun e he => hPoint e (h.mem_offers he)
  refine ⟨fun e he => ?_, fun y hy => ?_, ?_⟩
  · rcases List.mem_cons.mp he with rfl | he
    · -- an equal vector offered before would be covered, and its cover would cover `x`
      have hNone : firstWith offers e.vector = none := by
        refine List.find?_eq_none.mpr fun y hy hSame => ?_
        obtain ⟨c, hc, hCover⟩ := h.covered y hy
        have hWeak := ((hPoint y hy).sameVector_iff hPointX).mp hSame
        have hCoverX := (hPointRoster c hc).weaklyDominates_trans (hPoint y hy) hCover hWeak.1
        exact absurd ((hUncovered c hc).symm.trans hCoverX) Bool.false_ne_true
      have hSelf : Scalar.sameVector e.vector e.vector = true :=
        (hPointX.sameVector_iff hPointX).mpr
          ⟨hPointX.weaklyDominates_refl, hPointX.weaklyDominates_refl⟩
      unfold firstWith at hNone ⊢
      rw [List.find?_append, hNone, List.find?_singleton, hSelf]
      rfl
    · unfold firstWith
      rw [List.find?_append]
      exact congrArg (Option.or · _) (h.first e (List.mem_filter.mp he).1)
  · rcases List.mem_append.mp hy with hy | hy
    · obtain ⟨c, hc, hCover⟩ := h.covered y hy
      -- the old cover stays, or the newcomer dominates it and covers in its place
      cases hDom : dominates x.vector c.vector with
      | false =>
        exact ⟨c, List.mem_cons_of_mem _ (List.mem_filter.mpr ⟨hc, by rw [hDom]; rfl⟩), hCover⟩
      | true =>
        have hWeak := ((hPointX.dominates_iff (hPointRoster c hc)).mp hDom).1
        exact ⟨x, List.mem_cons_self ..,
          hPointX.weaklyDominates_trans (hPointRoster c hc) hWeak hCover⟩
    · obtain rfl := List.mem_singleton.mp hy
      exact ⟨y, List.mem_cons_self .., hPointX.weaklyDominates_refl⟩
  · exact antichain_cons hPointX hPointRoster h.antichain hUncovered

/-- An offer preserves the invariant. -/
theorem front_offered (hConsistent : Consistent d (offers ++ [x])) (h : Front offers roster) :
    Front (offers ++ [x]) (Roster.offered d roster x).2 := by
  have hPointX : IsPoint d x.vector := hConsistent.points x (by simp)
  -- a retained entry of the same solution has the same vector
  have hSame : ∀ e ∈ roster, e.solution = x.solution →
      Scalar.sameVector e.vector x.vector = true := fun e he hEq =>
    hConsistent.same e (List.mem_append_left _ (h.mem_offers he)) x (by simp) hEq
  unfold Roster.offered Roster.insert
  rw [if_neg (not_not_intro hPointX.1), if_neg (not_not_intro (List.all_eq_true.mpr hPointX.2))]
  split
  · next hRetained =>
    obtain ⟨e, he, hBoth⟩ := List.any_eq_true.mp hRetained
    have hVector := (Bool.and_eq_true_iff.mp hBoth).2
    have hPointE := hConsistent.points e (List.mem_append_left _ (h.mem_offers he))
    exact h.offered_covered ⟨e, he, ((hPointE.sameVector_iff hPointX).mp hVector).1⟩
  · next hNotRetained =>
    -- so no entry has the solution, and taking it out first changes nothing
    have hNew : ∀ e ∈ roster, e.solution ≠ x.solution := by
      intro e he hEq
      refine hNotRetained (List.any_eq_true.mpr ⟨e, he, ?_⟩)
      rw [decide_eq_true hEq, hSame e he hEq]
      rfl
    rw [filter_solution_eq_self hNew]
    unfold Roster.offer
    split
    · next hCovered =>
      exact h.offered_covered (List.any_eq_true.mp hCovered)
    · next hUncovered =>
      refine Front.offered_uncovered hConsistent h fun e he => ?_
      exact Bool.eq_false_iff.mpr fun hWeak => hUncovered (List.any_eq_true.mpr ⟨e, he, hWeak⟩)

/-- So does a whole history, whatever has been offered before. -/
theorem front_replies {done : List (Entry α)} (rest : List (Entry α))
    (hConsistent : Consistent d (done ++ rest)) (h : Front done roster) :
    Front (done ++ rest) (replies (Roster.offered d) roster rest).2 := by
  induction rest generalizing done roster with
  | nil =>
    rw [List.append_nil]
    exact h
  | cons x rest ih =>
    rw [List.append_cons] at hConsistent ⊢
    have hNow : Consistent d (done ++ [x]) :=
      ⟨fun y hy => hConsistent.points y (List.mem_append_left _ hy),
        fun y hy z hz => hConsistent.same y (List.mem_append_left _ hy) z
          (List.mem_append_left _ hz)⟩
    exact ih hConsistent (front_offered hNow h)

end Step

-- ---------------------------------------------------------------------------
-- Whole histories
-- ---------------------------------------------------------------------------

section History

variable {offers roster : List (Entry α)}

/-- A vector on the front is retained. -/
theorem Front.exists_retained (hConsistent : Consistent d offers) (h : Front offers roster)
    {x : Entry α} (hx : x ∈ offers) (hFront : OnFront offers x.vector) :
    ∃ e ∈ roster, Scalar.sameVector e.vector x.vector = true := by
  obtain ⟨e, he, hCover⟩ := h.covered x hx
  have hPointE := hConsistent.points e (h.mem_offers he)
  have hPointX := hConsistent.points x hx
  refine ⟨e, he, (hPointE.sameVector_iff hPointX).mpr ⟨hCover, ?_⟩⟩
  cases hBack : weaklyDominates x.vector e.vector with
  | true => rfl
  | false =>
    have hDom := (hPointE.dominates_iff hPointX).mpr ⟨hCover, hBack⟩
    exact absurd ((hFront e (h.mem_offers he)).symm.trans hDom) Bool.false_ne_true

/-- What is retained is on the front. -/
theorem Front.onFront (hConsistent : Consistent d offers) (h : Front offers roster) {e : Entry α}
    (he : e ∈ roster) : OnFront offers e.vector := by
  intro y hy
  refine Bool.eq_false_iff.mpr fun hDom => ?_
  have hPointY := hConsistent.points y hy
  have hPointE := hConsistent.points e (h.mem_offers he)
  obtain ⟨hWeak, hNot⟩ := (hPointY.dominates_iff hPointE).mp hDom
  obtain ⟨c, hc, hCover⟩ := h.covered y hy
  have hPointC := hConsistent.points c (h.mem_offers hc)
  -- the cover of `y` covers `e` as well, so it is `e`
  have hEq : c = e :=
    h.eq_of_weaklyDominates hc he (hPointC.weaklyDominates_trans hPointY hCover hWeak)
  rw [hEq, hNot] at hCover
  exact Bool.false_ne_true hCover

/-- Equal vectors have the same first offer. -/
theorem firstWith_congr (hConsistent : Consistent d offers) {v w : List α} (hv : IsPoint d v)
    (hw : IsPoint d w) (hSame : Scalar.sameVector v w = true) :
    firstWith offers v = firstWith offers w := by
  obtain ⟨hvw, hwv⟩ := (hv.sameVector_iff hw).mp hSame
  unfold firstWith
  rw [← List.head?_filter, ← List.head?_filter]
  refine congrArg List.head? (List.filter_congr fun x hx => ?_)
  have hPointX := hConsistent.points x hx
  rw [Bool.eq_iff_iff, hPointX.sameVector_iff hv, hPointX.sameVector_iff hw]
  constructor
  · rintro ⟨hxv, hvx⟩
    exact ⟨hPointX.weaklyDominates_trans hv hxv hvw, hw.weaklyDominates_trans hv hwv hvx⟩
  · rintro ⟨hxw, hwx⟩
    exact ⟨hPointX.weaklyDominates_trans hw hxw hwv, hv.weaklyDominates_trans hw hvw hwx⟩

/-- The roster is the front, each vector under the solution that was offered with it first. -/
theorem Front.mem_iff (hConsistent : Consistent d offers) (h : Front offers roster)
    (e : Entry α) :
    e ∈ roster ↔ OnFront offers e.vector ∧ firstWith offers e.vector = some e := by
  constructor
  · exact fun he => ⟨h.onFront hConsistent he, h.first e he⟩
  · rintro ⟨hFront, hFirst⟩
    have hOffered : e ∈ offers := List.mem_of_find?_eq_some hFirst
    obtain ⟨c, hc, hSame⟩ := h.exists_retained hConsistent hOffered hFront
    have hCongr := firstWith_congr hConsistent (hConsistent.points c (h.mem_offers hc))
      (hConsistent.points e hOffered) hSame
    rw [h.first c hc, hFirst] at hCongr
    obtain rfl := Option.some.inj hCongr
    exact hc

/-- No two entries have equal vectors. -/
theorem Front.pairwise_not_sameVector (hConsistent : Consistent d offers)
    (h : Front offers roster) :
    roster.Pairwise fun x y => Scalar.sameVector x.vector y.vector = false := by
  refine List.Pairwise.imp_of_mem (fun hx hy hApart => ?_) h.antichain
  refine Bool.eq_false_iff.mpr fun hSame => ?_
  have hPointX := hConsistent.points _ (h.mem_offers hx)
  have hPointY := hConsistent.points _ (h.mem_offers hy)
  have hWeak := ((hPointX.sameVector_iff hPointY).mp hSame).1
  exact absurd (hApart.1.symm.trans hWeak) Bool.false_ne_true

/-- Histories of the same offers retain the same vectors. -/
theorem Front.exists_sameVector_of_perm (hConsistent : Consistent d offers)
    (h : Front offers roster) {offers' roster' : List (Entry α)} (h' : Front offers' roster')
    (hPerm : offers'.Perm offers) {e : Entry α} (he : e ∈ roster) :
    ∃ e' ∈ roster', Scalar.sameVector e'.vector e.vector = true :=
  h'.exists_retained (hConsistent.perm hPerm) (hPerm.mem_iff.mpr (h.mem_offers he))
    ((h.onFront hConsistent he).perm hPerm)

/-- An archive holds the front of its history. -/
theorem exists_front {capacity : Nat} (hDimensions : 1 ≤ d ∧ d ≤ 64) (hCapacity : 1 ≤ capacity)
    (hConsistent : Consistent d offers) :
    ∃ empty : Archive α, Archive.empty d capacity = .ok empty ∧
      Front offers (empty.run offers).2.entries := by
  obtain ⟨empty, hEmpty, hStart⟩ := exists_empty (α := α) hDimensions hCapacity
  have hNothing : Front ([] : List (Entry α)) [] :=
    ⟨by simp, by simp, List.Pairwise.nil⟩
  have hRoster : Front offers (Roster.run d offers).2 := front_replies offers hConsistent hNothing
  exact ⟨empty, hEmpty, hRoster.perm (represents_run hStart offers).2.entries_perm.symm⟩

/-- **The archive is the Pareto front.** After a history in which each solution always carries the
same vector, exactly the first offers of the vectors on the front are retained, each vector once.
Another order of the offers and another capacity retain the same vectors. -/
theorem entries_eq_front {capacity : Nat} (hDimensions : 1 ≤ d ∧ d ≤ 64)
    (hCapacity : 1 ≤ capacity) (hConsistent : Consistent d offers) :
    ∃ empty : Archive α, Archive.empty d capacity = .ok empty ∧
      let result := (empty.run offers).2.entries
      (∀ e, e ∈ result ↔ OnFront offers e.vector ∧ firstWith offers e.vector = some e) ∧
      (∀ x ∈ offers, OnFront offers x.vector →
        ∃ e ∈ result, Scalar.sameVector e.vector x.vector = true) ∧
      (result.Pairwise fun x y => Scalar.sameVector x.vector y.vector = false) ∧
      ∀ (offers' : List (Entry α)) (capacity' : Nat), offers'.Perm offers → 1 ≤ capacity' →
        ∃ empty' : Archive α, Archive.empty d capacity' = .ok empty' ∧
          let result' := (empty'.run offers').2.entries
          (∀ e ∈ result, ∃ e' ∈ result', Scalar.sameVector e'.vector e.vector = true) ∧
          ∀ e' ∈ result', ∃ e ∈ result, Scalar.sameVector e.vector e'.vector = true := by
  obtain ⟨empty, hEmpty, hFront⟩ := exists_front hDimensions hCapacity hConsistent
  refine ⟨empty, hEmpty, hFront.mem_iff hConsistent,
    fun x hx hOn => hFront.exists_retained hConsistent hx hOn,
    hFront.pairwise_not_sameVector hConsistent, ?_⟩
  intro offers' capacity' hPerm hCapacity'
  have hConsistent' := hConsistent.perm hPerm
  obtain ⟨empty', hEmpty', hFront'⟩ := exists_front hDimensions hCapacity' hConsistent'
  refine ⟨empty', hEmpty', fun e he => ?_, fun e' he' => ?_⟩
  · exact hFront.exists_sameVector_of_perm hConsistent hFront' hPerm he
  · exact hFront'.exists_sameVector_of_perm hConsistent' hFront hPerm.symm he'

theorem entries_eq_front_of_three :
    (1 ≤ 2 ∧ 2 ≤ 64) ∧ 1 ≤ 1 ∧
    let offers : List (Entry Float) :=
      [⟨.identity 3, [1, 2]⟩, ⟨(Permutation.identity 3).swap 0 1, [2, 1]⟩,
        ⟨(Permutation.identity 3).swap 1 2, [1, 1]⟩]
    Consistent 2 offers ∧
    ∃ empty : Archive Float, Archive.empty 2 1 = .ok empty ∧
      let result := (empty.run offers).2.entries
      (∀ e, e ∈ result ↔ OnFront offers e.vector ∧ firstWith offers e.vector = some e) ∧
      (∀ x ∈ offers, OnFront offers x.vector →
        ∃ e ∈ result, Scalar.sameVector e.vector x.vector = true) ∧
      (result.Pairwise fun x y => Scalar.sameVector x.vector y.vector = false) ∧
      ∀ (offers' : List (Entry Float)) (capacity' : Nat), offers'.Perm offers → 1 ≤ capacity' →
        ∃ empty' : Archive Float, Archive.empty 2 capacity' = .ok empty' ∧
          let result' := (empty'.run offers').2.entries
          (∀ e ∈ result, ∃ e' ∈ result', Scalar.sameVector e'.vector e.vector = true) ∧
          ∀ e' ∈ result', ∃ e ∈ result, Scalar.sameVector e.vector e'.vector = true :=
  ⟨by decide, by decide, by decide, entries_eq_front (by decide) (by decide) (by decide)⟩

end History

end SwapSearch.Pareto
