import Mathlib.Data.Fintype.EquivFin
import Mathlib.Data.List.FinRange
import Mathlib.Logic.Equiv.Basic
import Mathlib.Order.WellFounded
import SwapSearch.Proofs.Pareto.Dominance
import SwapSearch.Proofs.Permutation
import SwapSearch.Proofs.Scalar.Extended
import SwapSearch.Proofs.Scalar.Sums

/-!
# SwapSearch — what is split off before a pivot is chosen

An item is *superseded* by another one that dominates it, and by an earlier one with an equal
vector. It is compared with all items, including those which are superseded themselves. Nothing
is lost by that: on points the relation is a strict order, so on a finite list every superseded
item is superseded by one that is not.

The pivot is the first of the remaining items whose span is the smallest. Spans can be ranked,
even where the difference of two finite components is not finite any more, because it is
always a number.

## Results

* `IsPoint.supersedes_iff`  — the relation in terms of weak dominance and of positions.
* `exists_front_of_superseded` — a superseded item is covered by one that is not.
* `narrowest_isNarrowest`   — the first item of minimal span.
* `isNaN_span`              — the span of a point is a number.
* `selectPivot_selection`   — what `selectPivot` keeps and what it removes.
-/

namespace SwapSearch.Pareto

-- ---------------------------------------------------------------------------
-- Superseded items
-- ---------------------------------------------------------------------------

section Definitions

variable {α β : Type} [Scalar α] (vector : β → List α) (items : List β)

/-- The item at `j` is another one and dominates the item at `i`, or it is an earlier one with
an equal vector. -/
def Supersedes (j i : Fin items.length) : Prop :=
  j ≠ i ∧ dominates (vector items[j]) (vector items[i]) = true ∨
    j < i ∧ Scalar.sameVector (vector items[j]) (vector items[i]) = true

instance (j i : Fin items.length) : Decidable (Supersedes vector items j i) :=
  inferInstanceAs (Decidable (_ ∨ _))

/-- Some item supersedes the item at `i`. -/
def Superseded (i : Fin items.length) : Prop := ∃ j, Supersedes vector items j i

instance : DecidablePred (Superseded vector items) := fun i =>
  inferInstanceAs (Decidable (∃ j, Supersedes vector items j i))

/-- The items at the positions that have a property, in order. -/
def itemsAt {β : Type} (items : List β) (P : Fin items.length → Prop) [DecidablePred P] :
    List β :=
  ((List.finRange items.length).filter (P ·)).map items.get

/-- The items that none supersedes, in order. -/
def front : List β := itemsAt items fun i => ¬ Superseded vector items i

/-- The item at `k` is the first of those with the smallest span. -/
structure IsNarrowest (k : Nat) (pivot : β) : Prop where
  at_position : items[k]? = some pivot
  least : ∀ (j : Nat) (y : β), items[j]? = some y → span (vector pivot) ≤ span (vector y)
  first : ∀ (j : Nat) (y : β), j < k → items[j]? = some y → span (vector pivot) < span (vector y)

/-- What becomes of a list of items whose pivot is chosen. -/
structure Selection (kept removed : List β) : Prop where
  lossless : (kept ++ removed).Perm items
  removed_eq : removed = itemsAt items (Superseded vector items)
  covered : ∀ x ∈ removed, ∃ y ∈ kept, weaklyDominates (vector y) (vector x) = true
  distinct : kept.Pairwise fun x y =>
    Scalar.sameVector (vector x) (vector y) = false ∧
      dominates (vector x) (vector y) = false ∧ dominates (vector y) (vector x) = false
  nonempty : items ≠ [] → kept ≠ []
  /-- The pivot changes places with the first item of the front. -/
  pivot : items ≠ [] → ∃ k pivot, IsNarrowest vector (front vector items) k pivot ∧
    ∀ j : Nat, kept[j]? = (front vector items)[Equiv.swap 0 k j]?

theorem supersedes_irrefl (i : Fin items.length) : ¬ Supersedes vector items i i := by
  rintro (⟨hNe, -⟩ | ⟨hLt, -⟩)
  · exact hNe rfl
  · exact lt_irrefl i hLt

end Definitions

theorem isPoint_getElem {α β : Type} [Scalar α] {d : Nat} {vector : β → List α} {items : List β}
    (hPoint : ∀ x ∈ items, IsPoint d (vector x)) (i : Fin items.length) :
    IsPoint d (vector items[i]) :=
  hPoint _ (List.getElem_mem i.isLt)

section Order

variable {α β : Type} [Scalar α] [OrderedScalar α] {d : Nat} {vector : β → List α}
  {items : List β}

/-- On points the better item supersedes the worse, and the earlier one of two equal ones the
later. -/
theorem IsPoint.supersedes_iff (hPoint : ∀ x ∈ items, IsPoint d (vector x))
    {j i : Fin items.length} :
    Supersedes vector items j i ↔ weaklyDominates (vector items[j]) (vector items[i]) = true ∧
      (weaklyDominates (vector items[i]) (vector items[j]) = false ∨ j < i) := by
  have hj := isPoint_getElem hPoint j
  have hi := isPoint_getElem hPoint i
  unfold Supersedes
  rw [hj.dominates_iff hi, hj.sameVector_iff hi]
  constructor
  · rintro (⟨-, hWeak, hStrict⟩ | ⟨hEarlier, hWeak, -⟩)
    · exact ⟨hWeak, Or.inl hStrict⟩
    · exact ⟨hWeak, Or.inr hEarlier⟩
  · rintro ⟨hWeak, hCase⟩
    -- equal vectors are told apart by their places
    cases hBack : weaklyDominates (vector items[i]) (vector items[j]) with
    | true =>
      have hEarlier : j < i := hCase.resolve_left (ne_false_of_eq_true hBack)
      exact Or.inr ⟨hEarlier, hWeak, rfl⟩
    | false =>
      refine Or.inl ⟨fun hEq => ?_, hWeak, rfl⟩
      rw [hEq] at hWeak hBack
      exact Bool.noConfusion (hWeak.symm.trans hBack)

/-- Points compare equal when their components are. -/
theorem IsPoint.dominance_eq_equal_iff {a b : List α} (ha : IsPoint d a) (hb : IsPoint d b) :
    dominance a b = .equal ↔ Scalar.sameVector a b = true := by
  rw [ha.sameVector_iff hb]
  unfold dominance
  rw [ha.betterSomewhere_eq hb, hb.betterSomewhere_eq ha]
  cases weaklyDominates a b <;> cases weaklyDominates b a <;> decide

theorem supersedes_trans (hPoint : ∀ x ∈ items, IsPoint d (vector x)) {k j i : Fin items.length}
    (hkj : Supersedes vector items k j) (hji : Supersedes vector items j i) :
    Supersedes vector items k i := by
  have hPoint' := isPoint_getElem hPoint
  have hTrans {a b c : Fin items.length} :=
    (hPoint' a).weaklyDominates_trans (c := vector items[c]) (hPoint' b)
  rw [IsPoint.supersedes_iff hPoint] at hkj hji ⊢
  obtain ⟨hWeak, hFirst⟩ := hkj
  obtain ⟨hWeak', hSecond⟩ := hji
  refine ⟨hTrans hWeak hWeak', ?_⟩
  -- weak dominance the other way would make both steps go both ways
  cases hBack : weaklyDominates (vector items[i]) (vector items[k]) with
  | false => exact Or.inl rfl
  | true =>
    have hEarlier : k < j := hFirst.resolve_left (ne_false_of_eq_true (hTrans hWeak' hBack))
    have hEarlier' : j < i := hSecond.resolve_left (ne_false_of_eq_true (hTrans hBack hWeak))
    exact Or.inr (hEarlier.trans hEarlier')

/-- **A superseded item is covered by one that is not.** -/
theorem exists_front_of_superseded (hPoint : ∀ x ∈ items, IsPoint d (vector x))
    (i : Fin items.length) : ∃ k, ¬ Superseded vector items k ∧
      weaklyDominates (vector items[k]) (vector items[i]) = true := by
  have hPoint' := isPoint_getElem hPoint
  have : IsTrans _ (Supersedes vector items) := ⟨fun _ _ _ => supersedes_trans hPoint⟩
  have : Std.Irrefl (Supersedes vector items) := ⟨supersedes_irrefl vector items⟩
  have hFounded := Finite.wellFounded_of_trans_of_irrefl (Supersedes vector items)
  induction i using hFounded.induction with
  | _ i ih =>
    by_cases hi : Superseded vector items i
    · obtain ⟨j, hj⟩ := hi
      obtain ⟨k, hk, hWeak⟩ := ih j hj
      have hAbove := ((IsPoint.supersedes_iff hPoint).mp hj).1
      exact ⟨k, hk, (hPoint' k).weaklyDominates_trans (hPoint' j) hWeak hAbove⟩
    · exact ⟨i, hi, (hPoint' i).weaklyDominates_refl⟩

/-- Of two items that none supersedes neither weakly dominates the other. -/
theorem incomparable_of_not_superseded (hPoint : ∀ x ∈ items, IsPoint d (vector x))
    {i j : Fin items.length} (hLt : i < j) (hi : ¬ Superseded vector items i)
    (hj : ¬ Superseded vector items j) : Incomparable (vector items[i]) (vector items[j]) := by
  have hForward : ¬ Supersedes vector items i j := fun h => hj ⟨i, h⟩
  have hBackward : ¬ Supersedes vector items j i := fun h => hi ⟨j, h⟩
  rw [IsPoint.supersedes_iff hPoint] at hForward hBackward
  have hNot : weaklyDominates (vector items[i]) (vector items[j]) = false :=
    Bool.eq_false_iff.mpr fun hWeak => hForward ⟨hWeak, Or.inr hLt⟩
  exact ⟨hNot, Bool.eq_false_iff.mpr fun hWeak => hBackward ⟨hWeak, Or.inl hNot⟩⟩

end Order

-- ---------------------------------------------------------------------------
-- Kept and removed items
-- ---------------------------------------------------------------------------

section Lists

variable {α β : Type} [Scalar α] {vector : β → List α} {items : List β}
  {P : Fin items.length → Prop} [DecidablePred P]

theorem mem_itemsAt {x : β} : x ∈ itemsAt items P ↔ ∃ i, P i ∧ items[i] = x := by
  simp [itemsAt]

/-- Every item is at a position with the property or at one without. -/
theorem itemsAt_append_perm :
    (itemsAt items (fun i => ¬ P i) ++ itemsAt items P).Perm items := by
  unfold itemsAt
  rw [← List.map_append]
  have hPositions : ((List.finRange items.length).filter (P ·) ++
      (List.finRange items.length).filter (¬ P ·)).Perm (List.finRange items.length) := by
    simpa only [decide_not] using
      List.filter_append_perm (fun i => decide (P i)) (List.finRange items.length)
  have hItems := (List.perm_append_comm.trans hPositions).map items.get
  rwa [List.map_get_finRange] at hItems

theorem zipIdx_eq : items.zipIdx = (List.finRange items.length).map fun i => (items[i], i.val) := by
  refine List.ext_getElem (by simp) fun k hk hk' => ?_
  simp

/-- What is at the positions with a property, when they are tested on the indexed list. -/
theorem map_filter_zipIdx {p : β × Nat → Bool} (h : ∀ i, p (items[i], i.val) = decide (P i)) :
    (items.zipIdx.filter p).map (·.1) = itemsAt items P := by
  rw [zipIdx_eq, List.filter_map, List.map_map]
  exact congrArg (List.map items.get) (List.filter_congr fun i _ => h i)

/-- The test that `selectPivot` makes. -/
theorem isRedundant_eq [OrderedScalar α] {d : Nat} (hPoint : ∀ x ∈ items, IsPoint d (vector x))
    (i : Fin items.length) :
    isRedundant vector items i (vector items[i]) = decide (Superseded vector items i) := by
  have hPoint' := isPoint_getElem hPoint
  rw [Bool.eq_iff_iff, decide_eq_true_iff]
  unfold isRedundant Superseded
  rw [zipIdx_eq, List.any_map, List.any_eq_true]
  refine exists_congr fun j => ?_
  unfold Supersedes dominates
  rw [← (hPoint' j).dominance_eq_equal_iff (hPoint' i)]
  simp only [Function.comp_apply, Fin.getElem_fin]
  cases dominance (vector items[j.val]) (vector items[i.val]) <;> simp [Fin.ext_iff]
  omega

theorem selectPivot_eq [OrderedScalar α] {d : Nat}
    (hPoint : ∀ x ∈ items, IsPoint d (vector x)) :
    selectPivot vector items =
      (exchangeFirst (front vector items) (narrowest vector (front vector items)),
        itemsAt items (Superseded vector items)) := by
  have hRemoved := map_filter_zipIdx (P := Superseded vector items)
    (p := fun x => isRedundant vector items x.2 (vector x.1)) (isRedundant_eq hPoint)
  have hKept := map_filter_zipIdx (P := fun i => ¬ Superseded vector items i)
    (p := fun x => !isRedundant vector items x.2 (vector x.1))
    fun i => by rw [isRedundant_eq hPoint, decide_not]
  unfold selectPivot
  rw [List.partition_eq_filter_filter]
  simp only [Function.comp_def, hRemoved, hKept, front]

end Lists

-- ---------------------------------------------------------------------------
-- The first item of minimal span
-- ---------------------------------------------------------------------------

section Narrowest

variable {α β : Type} [Scalar α] [OrderedScalar α] {vector : β → List α} {seen : List β}
  {k : Nat} {best : β}

/-- One more item is the narrowest if its span is smaller; otherwise the old one stays. -/
theorem IsNarrowest.step {item : β} (h : IsNarrowest vector seen k best)
    (hBest : Scalar.isNaN (span (vector best)) = false)
    (hItem : Scalar.isNaN (span (vector item)) = false) :
    if span (vector item) < span (vector best)
      then IsNarrowest vector (seen ++ [item]) seen.length item
      else IsNarrowest vector (seen ++ [item]) k best := by
  have hSeen {j : Nat} (hj : j < seen.length) : (seen ++ [item])[j]? = seen[j]? :=
    List.getElem?_append_left hj
  -- an item seen before keeps its place, and the new one comes last
  have hCases {j : Nat} {y : β} (hy : (seen ++ [item])[j]? = some y) :
      seen[j]? = some y ∨ y = item := by
    rcases Nat.lt_or_ge j seen.length with hj | hj
    · exact Or.inl (hSeen hj ▸ hy)
    · rw [List.getElem?_append_right hj] at hy
      exact Or.inr (List.mem_singleton.mp (List.mem_of_getElem? hy))
  have hInside : k < seen.length := (List.getElem?_eq_some_iff.mp h.at_position).1
  split
  case isTrue hLess =>
    refine ⟨List.getElem?_concat_length, fun j y hy => ?_, fun j y hj hy => ?_⟩
    · rcases hCases hy with hOld | rfl
      · exact OrderedScalar.le_trans (OrderedScalar.le_of_lt hLess) (h.least j y hOld)
      · exact OrderedScalar.le_self hItem
    · exact OrderedScalar.lt_of_lt_of_le hLess (h.least j y (hSeen hj ▸ hy))
  case isFalse hNot =>
    refine ⟨(hSeen hInside).trans h.at_position, fun j y hy => ?_, fun j y hj hy => ?_⟩
    · rcases hCases hy with hOld | rfl
      · exact h.least j y hOld
      · exact (OrderedScalar.not_lt_iff_le hItem hBest).mp hNot
    · exact h.first j y hj (hSeen (hj.trans hInside) ▸ hy)

/-- The fold of `narrowest`, from the narrowest item so far. -/
theorem IsNarrowest.foldl (rest : List β) (h : IsNarrowest vector seen k best)
    (hBest : Scalar.isNaN (span (vector best)) = false)
    (hRest : ∀ x ∈ rest, Scalar.isNaN (span (vector x)) = false) :
    ∃ pivot, IsNarrowest vector (seen ++ rest) ((rest.zipIdx seen.length).foldl
      (fun best item => if span (vector item.1) < span (vector best.1) then item else best)
      (best, k)).2 pivot := by
  -- on the items to come; the numbering goes on from those that were seen
  induction rest generalizing seen k best with
  | nil =>
    rw [List.append_nil]
    exact ⟨best, h⟩
  | cons item rest ih =>
    obtain ⟨hItem, hRest⟩ := List.forall_mem_cons.mp hRest
    have hStep := h.step hBest hItem
    rw [List.zipIdx_cons, List.foldl_cons, List.append_cons]
    have hLength : seen.length + 1 = (seen ++ [item]).length := by simp
    rw [hLength]
    split at hStep
    case isTrue hLess =>
      rw [if_pos hLess]
      exact ih hStep hItem hRest
    case isFalse hNot =>
      rw [if_neg hNot]
      exact ih hStep hBest hRest

/-- **`narrowest` finds the first item of minimal span.** -/
theorem narrowest_isNarrowest {items : List β} (hSome : items ≠ [])
    (hNumbers : ∀ x ∈ items, Scalar.isNaN (span (vector x)) = false) :
    ∃ pivot, IsNarrowest vector items (narrowest vector items) pivot := by
  cases items with
  | nil => exact absurd rfl hSome
  | cons item rest =>
    obtain ⟨hItem, hRest⟩ := List.forall_mem_cons.mp hNumbers
    have hFirst : IsNarrowest vector [item] 0 item := by
      refine ⟨rfl, fun j y hy => ?_, fun j y hj => absurd hj j.not_lt_zero⟩
      obtain rfl := List.mem_singleton.mp (List.mem_of_getElem? hy)
      exact OrderedScalar.le_self hItem
    exact hFirst.foldl rest hItem hRest

end Narrowest

-- ---------------------------------------------------------------------------
-- The span of a point
-- ---------------------------------------------------------------------------

section Span

variable {d : Nat} {v : List Float}

theorem isFinite_larger {a b : Float} (ha : Scalar.isFinite a = true)
    (hb : Scalar.isFinite b = true) : Scalar.isFinite (Scalar.larger a b) = true := by
  unfold Scalar.larger
  split
  · exact hb
  · exact ha

theorem isFinite_smaller {a b : Float} (ha : Scalar.isFinite a = true)
    (hb : Scalar.isFinite b = true) : Scalar.isFinite (Scalar.smaller a b) = true := by
  unfold Scalar.smaller
  split
  · exact hb
  · exact ha

/-- An operation on finite values does not lead out of them. -/
theorem isFinite_foldl {op : Float → Float → Float}
    (hOp : ∀ a b, Scalar.isFinite a = true → Scalar.isFinite b = true →
      Scalar.isFinite (op a b) = true)
    {a : Float} (ha : Scalar.isFinite a = true) (hv : ∀ x ∈ v, Scalar.isFinite x = true) :
    Scalar.isFinite (v.foldl op a) = true :=
  List.foldlRecOn (motive := fun b => Scalar.isFinite b = true) v op ha
    fun b hb x hx => hOp b x hb (hv x hx)

/-- The span of a point is a number. It need not be finite. -/
theorem isNaN_span (h : IsPoint d v) : Scalar.isNaN (span v) = false := by
  unfold span
  cases v with
  | nil => decide +kernel
  | cons x v =>
    obtain ⟨hx, hv⟩ := List.forall_mem_cons.mp h.2
    have hLow : (Scalar.negInf : Float) ≤ x :=
      OrderedScalar.le_of_lt (ExtendedScalar.negInf_lt hx)
    have hHigh : x ≤ (Scalar.posInf : Float) := Binary64.le_posInf hx
    rw [List.foldl_cons, List.foldl_cons, Scalar.larger_of_le hLow, Scalar.smaller_of_le hHigh]
    exact Binary64.isNaN_sub
      (isFinite_foldl (fun _ _ => isFinite_larger) hx hv)
      (isFinite_foldl (fun _ _ => isFinite_smaller) hx hv)

end Span

-- ---------------------------------------------------------------------------
-- Selecting
-- ---------------------------------------------------------------------------

section Select

variable {β : Type} {d : Nat} {vector : β → List Float} {items : List β}

theorem getElem?_exchangeFirst {β : Type} {items : List β} {k : Nat} (hk : k < items.length)
    (j : Nat) : (exchangeFirst items k)[j]? = items[Equiv.swap 0 k j]? := by
  have hFirst : 0 < items.toArray.size := Nat.zero_lt_of_lt hk
  have hSecond : k < items.toArray.size := hk
  unfold exchangeFirst
  rw [Array.getElem?_toList, getElem?_swapIfInBounds hFirst hSecond, List.getElem?_toArray]

/-- None of the items that are left supersedes another. -/
theorem front_pairwise (hPoint : ∀ x ∈ items, IsPoint d (vector x)) :
    (front vector items).Pairwise fun x y => Incomparable (vector x) (vector y) := by
  unfold front itemsAt
  rw [List.pairwise_map, List.pairwise_filter]
  refine (List.pairwise_lt_finRange _).imp fun hLt hi hj => ?_
  exact incomparable_of_not_superseded hPoint hLt (of_decide_eq_true hi) (of_decide_eq_true hj)

theorem front_ne_nil (hPoint : ∀ x ∈ items, IsPoint d (vector x)) (hSome : items ≠ []) :
    front vector items ≠ [] := by
  obtain ⟨k, hk, -⟩ :=
    exists_front_of_superseded hPoint ⟨0, List.length_pos_iff.mpr hSome⟩
  exact List.ne_nil_of_mem (mem_itemsAt.mpr ⟨k, hk, rfl⟩)

/-- **The front is kept and nothing is lost.** Kept and removed items are the items, what is
removed are the superseded ones in order, each of them is covered by a kept one, and the pivot
is the only kept item that has left its place. -/
theorem selectPivot_selection (hPoint : ∀ x ∈ items, IsPoint d (vector x)) :
    Selection vector items (selectPivot vector items).1 (selectPivot vector items).2 := by
  have hFront : ∀ x ∈ front vector items, IsPoint d (vector x) := by
    intro x hx
    obtain ⟨i, -, rfl⟩ := mem_itemsAt.mp hx
    exact isPoint_getElem hPoint i
  -- putting the pivot first permutes the front
  have hPerm := exchangeFirst_perm (front vector items) (narrowest vector (front vector items))
  rw [selectPivot_eq hPoint]
  constructor
  case lossless => exact (hPerm.append_right _).trans itemsAt_append_perm
  case removed_eq => rfl
  case covered =>
    intro x hx
    obtain ⟨i, -, rfl⟩ := mem_itemsAt.mp hx
    obtain ⟨k, hk, hWeak⟩ := exists_front_of_superseded hPoint i
    exact ⟨items[k], hPerm.mem_iff.mpr (mem_itemsAt.mpr ⟨k, hk, rfl⟩), hWeak⟩
  case distinct =>
    -- two kept items do not cover each other, which excludes all three relations
    refine List.Pairwise.imp_of_mem (fun {x y} hx hy h => ?_)
      ((hPerm.pairwise_iff Incomparable.symm).mpr (front_pairwise hPoint))
    have hx' := hFront x (hPerm.mem_iff.mp hx)
    have hy' := hFront y (hPerm.mem_iff.mp hy)
    refine ⟨Bool.eq_false_iff.mpr fun hSame => ?_, Bool.eq_false_iff.mpr fun hAbove => ?_,
      Bool.eq_false_iff.mpr fun hBelow => ?_⟩
    · exact Bool.eq_false_iff.mp h.1 ((hx'.sameVector_iff hy').mp hSame).1
    · exact Bool.eq_false_iff.mp h.1 ((hx'.dominates_iff hy').mp hAbove).1
    · exact Bool.eq_false_iff.mp h.2 ((hy'.dominates_iff hx').mp hBelow).1
  case nonempty =>
    intro hSome hNone
    exact front_ne_nil hPoint hSome (List.nil_perm.mp (hNone ▸ hPerm))
  case pivot =>
    intro hSome
    obtain ⟨pivot, hNarrowest⟩ := narrowest_isNarrowest (front_ne_nil hPoint hSome)
      fun x hx => isNaN_span (hFront x hx)
    have hInside := (List.getElem?_eq_some_iff.mp hNarrowest.at_position).1
    exact ⟨_, pivot, hNarrowest, getElem?_exchangeFirst hInside⟩

theorem selectPivot_selection_of_four :
    let items : List (List Float) := [[1, 5], [0, 4], [3, 3], [3, 3]]
    (∀ x ∈ items, IsPoint 2 (id x)) ∧
      Selection id items (selectPivot id items).1 (selectPivot id items).2 :=
  ⟨by decide, selectPivot_selection (d := 2) (by decide)⟩

end Select

end SwapSearch.Pareto
