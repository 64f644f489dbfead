import SwapSearch.Pareto.Dominance
import SwapSearch.Permutation
import SwapSearch.Proofs.Scalar.Order

/-!
# SwapSearch — the order of vectors

A *point* is a vector of the right length with finite components. On points weak
dominance is a preorder, and everything else the archive asks about two vectors is
said in terms of it: the comparison `dominance`, strict dominance, and equality by
`==`.

Regions are monotone: when `x` weakly dominates `y`, every bit of the region of `x`
is a bit of the region of `y`. Contrapositively, a subtree whose region is not a
subset of a point's region holds nothing that weakly dominates the point, and one
whose region is not a superset nothing that the point dominates.

## Results

* `IsPoint.weaklyDominates_refl`, `IsPoint.weaklyDominates_trans` — the preorder.
* `IsPoint.dominates_iff`   — strict dominance is weak dominance one way only.
* `IsPoint.sameVector_iff`  — equality is weak dominance both ways.
* `isSubregion_region`      — regions are monotone.
* `selectPivot_of_incomparable` — among pairwise incomparable items none is split off.
-/

namespace SwapSearch.Pareto

variable {α : Type} [Scalar α]

/-- A vector of `d` finite components. -/
def IsPoint (d : Nat) (v : List α) : Prop := v.length = d ∧ ∀ x ∈ v, Scalar.isFinite x = true

instance (d : Nat) (v : List α) : Decidable (IsPoint d v) := inferInstanceAs (Decidable (_ ∧ _))

/-- Neither vector weakly dominates the other. -/
def Incomparable (a b : List α) : Prop :=
  weaklyDominates a b = false ∧ weaklyDominates b a = false

theorem Incomparable.symm {a b : List α} (h : Incomparable a b) : Incomparable b a := ⟨h.2, h.1⟩

-- ---------------------------------------------------------------------------
-- Components
-- ---------------------------------------------------------------------------

/-- The pairs of a `zip` are the components that share a position. -/
theorem mem_zip_iff {β γ : Type} {a : List β} {b : List γ} {x : β} {y : γ} :
    (x, y) ∈ a.zip b ↔ ∃ k : Nat, a[k]? = some x ∧ b[k]? = some y := by
  rw [List.mem_iff_getElem?]
  exact exists_congr fun k => List.getElem?_zip_eq_some

theorem weaklyDominates_iff {a b : List α} :
    weaklyDominates a b = true ↔
      ∀ (k : Nat) (x y : α), a[k]? = some x → b[k]? = some y → y ≤ x := by
  unfold weaklyDominates
  rw [List.all_eq_true]
  constructor
  · intro h k x y hx hy
    exact of_decide_eq_true (h (x, y) (mem_zip_iff.mpr ⟨k, hx, hy⟩))
  · rintro h ⟨x, y⟩ hMem
    obtain ⟨k, hx, hy⟩ := mem_zip_iff.mp hMem
    exact decide_eq_true (h k x y hx hy)

theorem betterSomewhere_iff {a b : List α} :
    betterSomewhere a b = true ↔
      ∃ (k : Nat) (x y : α), a[k]? = some x ∧ b[k]? = some y ∧ y < x := by
  unfold betterSomewhere
  rw [List.any_eq_true]
  constructor
  · rintro ⟨⟨x, y⟩, hMem, hLt⟩
    obtain ⟨k, hx, hy⟩ := mem_zip_iff.mp hMem
    exact ⟨k, x, y, hx, hy, of_decide_eq_true hLt⟩
  · rintro ⟨k, x, y, hx, hy, hLt⟩
    exact ⟨(x, y), mem_zip_iff.mpr ⟨k, hx, hy⟩, decide_eq_true hLt⟩

theorem sameVector_iff_getElem {a b : List α} :
    Scalar.sameVector a b = true ↔
      a.length = b.length ∧
        ∀ (k : Nat) (x y : α), a[k]? = some x → b[k]? = some y → (x == y) = true := by
  unfold Scalar.sameVector
  -- on the vectors, component by component
  induction a generalizing b with
  | nil => cases b <;> simp
  | cons x a ih =>
    cases b with
    | nil => simp
    | cons y b =>
      rw [List.cons_beq_cons, Bool.and_eq_true, ih, List.length_cons, List.length_cons]
      constructor
      · rintro ⟨hHead, hLength, hTail⟩
        refine ⟨by omega, fun k u v hu hv => ?_⟩
        cases k with
        | zero =>
          obtain rfl : x = u := by simpa using hu
          obtain rfl : y = v := by simpa using hv
          exact hHead
        | succ k => exact hTail k u v (by simpa using hu) (by simpa using hv)
      · rintro ⟨hLength, hAll⟩
        refine ⟨hAll 0 x y rfl rfl, by omega, fun k u v hu hv => ?_⟩
        exact hAll (k + 1) u v (by simpa using hu) (by simpa using hv)

theorem IsPoint.isFinite {d : Nat} {v : List α} (h : IsPoint d v) {k : Nat} {x : α}
    (hx : v[k]? = some x) : Scalar.isFinite x = true :=
  h.2 x (List.mem_of_getElem? hx)

/-- Points of one dimension have the same positions. -/
theorem IsPoint.exists_component {d : Nat} {a b : List α} (ha : IsPoint d a) (hb : IsPoint d b)
    {k : Nat} {x : α} (hx : a[k]? = some x) : ∃ y, b[k]? = some y := by
  have hLt : k < a.length := (List.getElem?_eq_some_iff.mp hx).1
  have hLt' : k < b.length := by rw [hb.1, ← ha.1]; exact hLt
  exact ⟨b[k], List.getElem?_eq_getElem hLt'⟩

-- ---------------------------------------------------------------------------
-- The preorder of points
-- ---------------------------------------------------------------------------

section Order

variable [OrderedScalar α] {d : Nat} {a b c : List α}

theorem IsPoint.weaklyDominates_refl (ha : IsPoint d a) : weaklyDominates a a = true := by
  rw [weaklyDominates_iff]
  intro k x y hx hy
  obtain rfl : x = y := Option.some.inj (hx.symm.trans hy)
  exact OrderedScalar.le_self_of_isFinite (ha.isFinite hx)

theorem IsPoint.weaklyDominates_trans (ha : IsPoint d a) (hb : IsPoint d b)
    (hab : weaklyDominates a b = true) (hbc : weaklyDominates b c = true) :
    weaklyDominates a c = true := by
  rw [weaklyDominates_iff] at *
  intro k x z hx hz
  obtain ⟨y, hy⟩ := ha.exists_component hb hx
  exact OrderedScalar.le_trans (hbc k y z hy hz) (hab k x y hx hy)

/-- To be better somewhere is not to be weakly dominated. -/
theorem IsPoint.betterSomewhere_eq (ha : IsPoint d a) (hb : IsPoint d b) :
    betterSomewhere a b = !weaklyDominates b a := by
  rw [Bool.eq_iff_iff, Bool.not_eq_true', ← Bool.not_eq_true, betterSomewhere_iff,
    weaklyDominates_iff]
  constructor
  · rintro ⟨k, x, y, hx, hy, hLt⟩ hAll
    exact OrderedScalar.not_le_of_lt hLt (hAll k y x hy hx)
  · intro hNot
    refine Classical.byContradiction fun hNone => hNot fun k y x hy hx => ?_
    refine Classical.byContradiction fun hLe => ?_
    have hLt := (OrderedScalar.not_le_iff_lt (ha.isFinite hx) (hb.isFinite hy)).mp hLe
    exact hNone ⟨k, x, y, hx, hy, hLt⟩

theorem IsPoint.dominates_iff (ha : IsPoint d a) (hb : IsPoint d b) :
    dominates a b = true ↔ weaklyDominates a b = true ∧ weaklyDominates b a = false := by
  unfold dominates dominance
  rw [ha.betterSomewhere_eq hb, hb.betterSomewhere_eq ha]
  cases weaklyDominates a b <;> cases weaklyDominates b a <;> decide

theorem IsPoint.dominance_of_incomparable (ha : IsPoint d a) (hb : IsPoint d b)
    (h : Incomparable a b) : dominance a b = .neither := by
  unfold dominance
  rw [ha.betterSomewhere_eq hb, hb.betterSomewhere_eq ha, h.1, h.2]
  rfl

theorem IsPoint.sameVector_iff (ha : IsPoint d a) (hb : IsPoint d b) :
    Scalar.sameVector a b = true ↔
      weaklyDominates a b = true ∧ weaklyDominates b a = true := by
  rw [sameVector_iff_getElem, weaklyDominates_iff, weaklyDominates_iff]
  constructor
  · rintro ⟨-, hAll⟩
    exact ⟨fun k x y hx hy => (OrderedScalar.beq_iff_le_le.mp (hAll k x y hx hy)).2,
      fun k y x hy hx => (OrderedScalar.beq_iff_le_le.mp (hAll k x y hx hy)).1⟩
  · rintro ⟨hab, hba⟩
    refine ⟨by rw [ha.1, hb.1], fun k x y hx hy => ?_⟩
    exact OrderedScalar.beq_iff_le_le.mpr ⟨hba k y x hy hx, hab k x y hx hy⟩

end Order

-- ---------------------------------------------------------------------------
-- Regions
-- ---------------------------------------------------------------------------

/-- Bit `k` of a region says that component `k` of the point is at most that of the reference. -/
theorem testBit_region (r p : List α) (k : Nat) :
    (region r p).testBit k = true ↔ ∃ x y, r[k]? = some x ∧ p[k]? = some y ∧ y ≤ x := by
  induction r generalizing p k with
  | nil => simp [region]
  | cons x r ih =>
    cases p with
    | nil => simp [region]
    | cons y p =>
      cases k with
      | zero =>
        rw [region, Nat.testBit_zero]
        by_cases h : y ≤ x
        · simp [h]
        · simp [h]
      | succ k =>
        have hHalf : ((if y ≤ x then 1 else 0) + 2 * region r p) / 2 = region r p := by
          split <;> omega
        rw [region, Nat.testBit_add_one, hHalf, ih]
        simp

theorem isSubregion_iff {m q : Nat} :
    isSubregion m q = true ↔ ∀ k, m.testBit k = true → q.testBit k = true := by
  unfold isSubregion
  rw [beq_iff_eq]
  constructor
  · intro h k hk
    rw [← h, Nat.testBit_and, Bool.and_eq_true] at hk
    exact hk.2
  · intro h
    apply Nat.eq_of_testBit_eq
    intro k
    rw [Nat.testBit_and]
    cases hk : m.testBit k with
    | false => rfl
    | true => rw [h k hk]; rfl

theorem isSubregion_self (m : Nat) : isSubregion m m = true :=
  isSubregion_iff.mpr fun _ h => h

/-- The better of two points lies in the smaller region. -/
theorem isSubregion_region [OrderedScalar α] {d : Nat} {r x y : List α} (hx : IsPoint d x)
    (hy : IsPoint d y) (h : weaklyDominates x y = true) :
    isSubregion (region r x) (region r y) = true := by
  rw [isSubregion_iff]
  intro k hk
  obtain ⟨u, v, hu, hv, hLe⟩ := (testBit_region r x k).mp hk
  obtain ⟨w, hw⟩ := hx.exists_component hy hv
  have hwv : w ≤ v := weaklyDominates_iff.mp h k v w hv hw
  exact (testBit_region r y k).mpr ⟨u, w, hu, hw, OrderedScalar.le_trans hwv hLe⟩

-- ---------------------------------------------------------------------------
-- Choosing a pivot
-- ---------------------------------------------------------------------------

section Pivot

variable {β : Type} (vector : β → List α)

theorem exchangeFirst_perm (items : List β) (k : Nat) : (exchangeFirst items k).Perm items :=
  swapIfInBounds_perm items.toArray 0 k

/-- What is incomparable with every other item is not redundant. -/
theorem isRedundant_eq_false {items : List β} {i : Nat} {v : List α}
    (h : ∀ j y, items[j]? = some y → j ≠ i → dominance (vector y) v = .neither) :
    isRedundant vector items i v = false := by
  unfold isRedundant
  rw [List.any_eq_false]
  rintro ⟨y, j⟩ hMem
  have hAt : items[j]? = some y := List.mem_zipIdx_iff_getElem?.mp hMem
  by_cases hji : j = i
  · simp [hji]
  · simp [h j y hAt hji]

/-- Among pairwise incomparable items none is split off. -/
theorem selectPivot_of_incomparable [OrderedScalar α] {d : Nat} {items : List β}
    (hPoint : ∀ x ∈ items, IsPoint d (vector x))
    (hPairwise : items.Pairwise fun x y => Incomparable (vector x) (vector y)) :
    (selectPivot vector items).1.Perm items ∧ (selectPivot vector items).2 = [] := by
  have hKeep : ∀ x ∈ items.zipIdx,
      isRedundant vector items x.2 (vector x.1) = false := by
    rintro ⟨x, i⟩ hMem
    have hAt : items[i]? = some x := List.mem_zipIdx_iff_getElem?.mp hMem
    obtain ⟨hi, rfl⟩ := List.getElem?_eq_some_iff.mp hAt
    apply isRedundant_eq_false
    intro j y hj hji
    obtain ⟨hjLt, rfl⟩ := List.getElem?_eq_some_iff.mp hj
    -- incomparable either way, so the order of the two does not matter
    have hPair : Incomparable (vector items[j]) (vector items[i]) := by
      rcases Nat.lt_or_gt_of_ne hji with hLt | hGt
      · exact List.pairwise_iff_getElem.mp hPairwise j i hjLt hi hLt
      · exact (List.pairwise_iff_getElem.mp hPairwise i j hi hjLt hGt).symm
    exact (hPoint _ (List.getElem_mem hjLt)).dominance_of_incomparable
      (hPoint _ (List.getElem_mem hi)) hPair
  have hRemoved : (items.zipIdx.filter fun x => isRedundant vector items x.2 (vector x.1)) = [] :=
    List.filter_eq_nil_iff.mpr fun x hx => by simp [hKeep x hx]
  have hKept : (items.zipIdx.filter fun x => !isRedundant vector items x.2 (vector x.1)) =
      items.zipIdx :=
    List.filter_eq_self.mpr fun x hx => by simp [hKeep x hx]
  unfold selectPivot
  rw [List.partition_eq_filter_filter]
  simp only [Function.comp_def, hRemoved, hKept, List.zipIdx_map_fst, List.map_nil, and_true]
  exact exchangeFirst_perm _ _

end Pivot

end SwapSearch.Pareto
