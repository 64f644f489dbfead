import SwapSearch.Scalar.Binary64

/-!
# SwapSearch — the order of scalars

The interface `Scalar` promises nothing about its comparisons. What the archive
and the population need of them is little: two values of which neither is
not-a-number are comparable, `≤` is transitive, and `<` and `==` are what they
should be in terms of `≤`. No arithmetic is involved, and two values that are
equal by `==` need not be the same, as the two zeros are not.

* `OrderedScalar` — these laws.
* `instOrderedFloat` — binary64 numbers have them. A number is ranked by sign,
  exponent and mantissa, and `Float` compares by that rank
  (`Binary64.compare_eq_byRank`).

## Results

* `le_self_of_isFinite` — a finite value is at most itself.
* `not_le_iff_lt`       — on finite values `<` is the complement of `≥`.
* `larger_larger`       — raising a value twice is raising it once, to the larger value.
-/

namespace SwapSearch

/-- Comparisons that order all values except what is not a number. -/
class OrderedScalar (α : Type) [Scalar α] : Prop where
  le_trans : ∀ {a b c : α}, a ≤ b → b ≤ c → a ≤ c
  le_total : ∀ {a b : α}, Scalar.isNaN a = false → Scalar.isNaN b = false → a ≤ b ∨ b ≤ a
  lt_iff_le_not_le : ∀ {a b : α}, a < b ↔ a ≤ b ∧ ¬ b ≤ a
  beq_iff_le_le : ∀ {a b : α}, (a == b) = true ↔ a ≤ b ∧ b ≤ a
  isNaN_of_isFinite : ∀ {a : α}, Scalar.isFinite a = true → Scalar.isNaN a = false

namespace OrderedScalar

variable {α : Type} [Scalar α] [OrderedScalar α]

theorem le_total_of_isFinite {a b : α} (ha : Scalar.isFinite a = true)
    (hb : Scalar.isFinite b = true) : a ≤ b ∨ b ≤ a :=
  le_total (isNaN_of_isFinite ha) (isNaN_of_isFinite hb)

theorem le_self {a : α} (ha : Scalar.isNaN a = false) : a ≤ a := or_self_iff.mp (le_total ha ha)

theorem le_self_of_isFinite {a : α} (ha : Scalar.isFinite a = true) : a ≤ a :=
  le_self (isNaN_of_isFinite ha)

theorem le_of_lt {a b : α} (h : a < b) : a ≤ b := (lt_iff_le_not_le.mp h).1

theorem not_le_of_lt {a b : α} (h : a < b) : ¬ b ≤ a := (lt_iff_le_not_le.mp h).2

theorem lt_of_lt_of_le {a b c : α} (hab : a < b) (hbc : b ≤ c) : a < c :=
  lt_iff_le_not_le.mpr ⟨le_trans (le_of_lt hab) hbc,
    fun hca => not_le_of_lt hab (le_trans hbc hca)⟩

theorem lt_of_le_of_lt {a b c : α} (hab : a ≤ b) (hbc : b < c) : a < c :=
  lt_iff_le_not_le.mpr ⟨le_trans hab (le_of_lt hbc),
    fun hca => not_le_of_lt hbc (le_trans hca hab)⟩

theorem not_lt_iff_le {a b : α} (ha : Scalar.isNaN a = false) (hb : Scalar.isNaN b = false) :
    ¬ a < b ↔ b ≤ a := by
  rw [lt_iff_le_not_le]
  constructor
  · intro h
    rcases le_total ha hb with hab | hba
    · exact Classical.not_not.mp fun hNot => h ⟨hab, hNot⟩
    · exact hba
  · exact fun h hLt => hLt.2 h

theorem not_le_iff_lt {a b : α} (ha : Scalar.isFinite a = true)
    (hb : Scalar.isFinite b = true) : ¬ a ≤ b ↔ b < a := by
  rw [lt_iff_le_not_le]
  constructor
  · intro h
    rcases le_total_of_isFinite ha hb with hab | hba
    · exact absurd hab h
    · exact ⟨hba, h⟩
  · exact fun h => h.2

end OrderedScalar

-- ---------------------------------------------------------------------------
-- The larger of two
-- ---------------------------------------------------------------------------

namespace Scalar

open OrderedScalar

variable {α : Type} [Scalar α]

theorem larger_of_isNaN {a b : α} (ha : isNaN a = true) : larger a b = b := if_pos (Or.inl ha)

theorem larger_of_le {a b : α} (h : a ≤ b) : larger a b = b := if_pos (Or.inr h)

theorem larger_of_not_le {a b : α} (ha : isNaN a = false) (h : ¬ a ≤ b) : larger a b = a :=
  if_neg (not_or.mpr ⟨Bool.eq_false_iff.mp ha, h⟩)

theorem smaller_of_le {a b : α} (h : b ≤ a) : smaller a b = b := if_pos (Or.inr h)

/-- The first is taken only if it is a number and not at most the second. -/
theorem larger_cases (a b : α) :
    larger a b = b ∨ larger a b = a ∧ isNaN a = false ∧ ¬ a ≤ b := by
  cases ha : isNaN a with
  | true => exact Or.inl (larger_of_isNaN ha)
  | false =>
    by_cases h : a ≤ b
    · exact Or.inl (larger_of_le h)
    · exact Or.inr ⟨larger_of_not_le ha h, rfl, h⟩

variable [OrderedScalar α] {a b c : α}

theorem le_larger_left (ha : isNaN a = false) : a ≤ larger a b := by
  by_cases h : a ≤ b
  · rwa [larger_of_le h]
  · rw [larger_of_not_le ha h]
    exact le_self ha

theorem le_larger_right (hb : isNaN b = false) : b ≤ larger a b := by
  rcases larger_cases a b with hSecond | ⟨hFirst, ha, hNot⟩
  · exact hSecond.symm ▸ le_self hb
  · exact hFirst.symm ▸ (le_total ha hb).resolve_left hNot

/-- Raising twice, the second time to no less, is raising once. -/
theorem larger_larger (h : b ≤ c) : larger (larger a b) c = larger a c := by
  cases ha : isNaN a with
  | true => rw [larger_of_isNaN ha, larger_of_isNaN ha, larger_of_le h]
  | false =>
    by_cases hab : a ≤ b
    · rw [larger_of_le hab, larger_of_le h, larger_of_le (le_trans hab h)]
    · rw [larger_of_not_le ha hab]

end Scalar

-- ---------------------------------------------------------------------------
-- Binary floating point
-- ---------------------------------------------------------------------------

namespace Binary64

open Float.Model Float.Model.UnpackedFloat

/-- Sign class, exponent and mantissa, signed so that they grow with the value. What is not a
number has no rank, and both zeros have the same. -/
def rank : UnpackedFloat → Option (Int × Int × Int)
  | .notANumber => none
  | .infinity .positive => some (2, 0, 0)
  | .infinity .negative => some (-2, 0, 0)
  | .zero _ => some (0, 0, 0)
  | .finite .positive m e _ => some (1, e, m)
  | .finite .negative m e _ => some (-1, -e, -m)

/-- Ranks are compared lexicographically. -/
def byRank : Int × Int × Int → Int × Int × Int → Ordering :=
  compareLex (compareOn (·.1)) (compareLex (compareOn (·.2.1)) (compareOn (·.2.2)))

instance transCmpByRank : Std.TransCmp byRank := inferInstanceAs (Std.TransCmp (compareLex _ _))

theorem compare_neg (x y : Int) : compare (-x) (-y) = compare y x := by
  rcases Int.lt_trichotomy x y with h | h | h
  · rw [Int.compare_eq_gt.mpr (show -y < -x by omega), Int.compare_eq_gt.mpr h]
  · rw [Int.compare_eq_eq.mpr (show -x = -y by omega), Int.compare_eq_eq.mpr h.symm]
  · rw [Int.compare_eq_lt.mpr (show -x < -y by omega), Int.compare_eq_lt.mpr h]

theorem compare_natCast (m n : Nat) : compare (m : Int) (n : Int) = compare m n := by
  rcases Nat.lt_trichotomy m n with h | h | h
  · rw [Nat.compare_eq_lt.mpr h, Int.compare_eq_lt.mpr (by omega)]
  · rw [Nat.compare_eq_eq.mpr h, Int.compare_eq_eq.mpr (by omega)]
  · rw [Nat.compare_eq_gt.mpr h, Int.compare_eq_gt.mpr (by omega)]

theorem byRank_positive (d e : Int) (m n : Nat) :
    byRank (1, d, m) (1, e, n) = (compare d e).then (compare m n) := by
  show (compare (1 : Int) 1).then ((compare d e).then (compare (m : Int) n)) = _
  rw [compare_natCast, Int.compare_eq_eq.mpr rfl]
  rfl

theorem byRank_negative (d e : Int) (m n : Nat) :
    byRank (-1, -d, -m) (-1, -e, -n) = ((compare d e).then (compare m n)).swap := by
  show (compare (-1 : Int) (-1)).then
    ((compare (-d) (-e)).then (compare (-(m : Int)) (-n))) = _
  rw [compare_neg, compare_neg d, compare_neg, compare_natCast, Ordering.swap_then,
    Int.compare_swap, Nat.compare_swap, Int.compare_eq_eq.mpr rfl]
  rfl

/-- Two numbers compare as their ranks do; what is not a number compares with nothing. -/
theorem compare_eq_byRank (a b : UnpackedFloat) :
    a.compare b = (rank a).bind fun x => (rank b).map (byRank x) := by
  -- by the kinds of number: ranks are ordered by kind and sign, then exponent and mantissa
  cases a with
  | notANumber => cases b <;> rfl
  | infinity s =>
    cases b with
    | infinity t => cases s <;> cases t <;> rfl
    | finite t => cases s <;> cases t <;> rfl
    | _ => cases s <;> rfl
  | zero s =>
    cases b with
    | infinity t => cases t <;> rfl
    | finite t => cases t <;> rfl
    | _ => rfl
  | finite s m d hm =>
    cases b with
    | infinity t => cases s <;> cases t <;> rfl
    | finite t n e hn =>
      cases s <;> cases t
      · exact congrArg some (byRank_negative d e m n).symm
      · rfl
      · rfl
      · exact congrArg some (byRank_positive d e m n).symm
    | _ => cases s <;> rfl

/-- The rank of a `Float`. -/
def rankOf (a : Float) : Option (Int × Int × Int) := rank a.toModel.unpack

theorem le_iff {a b : Float} :
    a ≤ b ↔ ∃ x y, rankOf a = some x ∧ rankOf b = some y ∧ (byRank x y).isLE = true := by
  have h : a ≤ b ↔ (a.toModel.unpack.compare b.toModel.unpack).any (·.isLE) = true :=
    decide_eq_true_iff
  rw [h, compare_eq_byRank]
  unfold rankOf
  cases rank a.toModel.unpack <;> cases rank b.toModel.unpack <;> simp

theorem lt_iff {a b : Float} :
    a < b ↔ ∃ x y, rankOf a = some x ∧ rankOf b = some y ∧ byRank x y = .lt := by
  have h : a < b ↔ (a.toModel.unpack.compare b.toModel.unpack == some .lt) = true :=
    decide_eq_true_iff
  rw [h, compare_eq_byRank]
  unfold rankOf
  cases rank a.toModel.unpack <;> cases rank b.toModel.unpack <;> simp

theorem beq_iff {a b : Float} :
    (a == b) = true ↔ ∃ x y, rankOf a = some x ∧ rankOf b = some y ∧ byRank x y = .eq := by
  show (a.toModel.unpack.compare b.toModel.unpack == some .eq) = true ↔ _
  rw [compare_eq_byRank]
  unfold rankOf
  cases rank a.toModel.unpack <;> cases rank b.toModel.unpack <;> simp

/-- A value has a rank unless it is not a number. -/
theorem exists_rankOf {a : Float} (h : Scalar.isNaN a = false) : ∃ x, rankOf a = some x := by
  have hSelf : (a == a) = true := by simpa [Scalar.isNaN] using h
  obtain ⟨x, -, hx, -, -⟩ := beq_iff.mp hSelf
  exact ⟨x, hx⟩

/-- What has a rank is a number. -/
theorem isNaN_of_rankOf {a : Float} {x : Int × Int × Int} (h : rankOf a = some x) :
    Scalar.isNaN a = false := by
  have hSelf : (a == a) = true := beq_iff.mpr ⟨x, x, h, h, Std.ReflCmp.compare_self⟩
  simp [Scalar.isNaN, hSelf]

theorem isNaN_eq_false {a : Float} (h : a.isFinite = true) : Scalar.isNaN a = false := by
  have hFinite : a.toModel.unpack.isFinite = true := h
  have hRank : ∃ x, rankOf a = some x := by
    unfold rankOf
    revert hFinite
    cases a.toModel.unpack with
    | zero s => exact fun _ => ⟨_, rfl⟩
    | finite s m e => cases s <;> exact fun _ => ⟨_, rfl⟩
    | _ => exact fun h => Bool.noConfusion h
  obtain ⟨x, hx⟩ := hRank
  exact isNaN_of_rankOf hx

end Binary64

instance instOrderedFloat : OrderedScalar Float where
  le_trans := by
    intro a b c hab hbc
    obtain ⟨x, y, hx, hy, hxy⟩ := Binary64.le_iff.mp hab
    obtain ⟨y', z, hy', hz, hyz⟩ := Binary64.le_iff.mp hbc
    obtain rfl : y = y' := Option.some.inj (hy.symm.trans hy')
    exact Binary64.le_iff.mpr ⟨x, z, hx, hz, Std.TransCmp.isLE_trans hxy hyz⟩
  le_total := by
    intro a b ha hb
    obtain ⟨x, hx⟩ := Binary64.exists_rankOf ha
    obtain ⟨y, hy⟩ := Binary64.exists_rankOf hb
    rcases hCase : Binary64.byRank x y with _ | _ | _
    · exact Or.inl (Binary64.le_iff.mpr ⟨x, y, hx, hy, by rw [hCase]; rfl⟩)
    · exact Or.inl (Binary64.le_iff.mpr ⟨x, y, hx, hy, by rw [hCase]; rfl⟩)
    · have hSwap := Std.OrientedCmp.gt_iff_lt.mp hCase
      exact Or.inr (Binary64.le_iff.mpr ⟨y, x, hy, hx, by rw [hSwap]; rfl⟩)
  lt_iff_le_not_le := by
    intro a b
    rw [Binary64.lt_iff, Binary64.le_iff, Binary64.le_iff]
    constructor
    · rintro ⟨x, y, hx, hy, hxy⟩
      refine ⟨⟨x, y, hx, hy, by rw [hxy]; rfl⟩, ?_⟩
      rintro ⟨y', x', hy', hx', hyx⟩
      obtain rfl : x = x' := Option.some.inj (hx.symm.trans hx')
      obtain rfl : y = y' := Option.some.inj (hy.symm.trans hy')
      rw [Std.OrientedCmp.gt_iff_lt.mpr hxy] at hyx
      exact Bool.noConfusion hyx
    · rintro ⟨⟨x, y, hx, hy, hxy⟩, hNot⟩
      refine ⟨x, y, hx, hy, ?_⟩
      cases hCase : Binary64.byRank x y with
      | lt => rfl
      | eq =>
        have hSwap : Binary64.byRank y x = .eq := Std.OrientedCmp.eq_comm.mp hCase
        exact absurd ⟨y, x, hy, hx, by rw [hSwap]; rfl⟩ hNot
      | gt => rw [hCase] at hxy; exact Bool.noConfusion hxy
  beq_iff_le_le := by
    intro a b
    rw [Binary64.beq_iff, Binary64.le_iff, Binary64.le_iff]
    constructor
    · rintro ⟨x, y, hx, hy, hxy⟩
      have hSwap : Binary64.byRank y x = .eq := Std.OrientedCmp.eq_comm.mp hxy
      exact ⟨⟨x, y, hx, hy, by rw [hxy]; rfl⟩, ⟨y, x, hy, hx, by rw [hSwap]; rfl⟩⟩
    · rintro ⟨⟨x, y, hx, hy, hxy⟩, ⟨y', x', hy', hx', hyx⟩⟩
      obtain rfl : x = x' := Option.some.inj (hx.symm.trans hx')
      obtain rfl : y = y' := Option.some.inj (hy.symm.trans hy')
      exact ⟨x, y, hx, hy, Std.OrientedCmp.isLE_antisymm hxy hyx⟩
  isNaN_of_isFinite := Binary64.isNaN_eq_false

end SwapSearch
