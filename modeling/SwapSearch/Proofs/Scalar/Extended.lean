import SwapSearch.Proofs.Scalar.Rounding

/-!
# SwapSearch — infinities

Floating point has values beyond all finite ones. What is asked of them is that negative
infinity is such a value, that finite values lie together, and that giving a single value
the weight one does not lead out of them. Exact arithmetic has nothing of the kind: what
stands for infinity there is a number as any other.

* `ExtendedScalar` — scalars with infinities.
* `instExtendedFloat` — binary64 numbers are such scalars.

## Results

* `isFinite_iff_rank` — a number is finite if its rank lies between those of the infinities.
* `one_mul_eq`        — multiplying by one changes no stored number.
-/

namespace SwapSearch

/-- Scalars with infinities. -/
class ExtendedScalar (α : Type) [Scalar α] : Prop where
  negInf_lt : ∀ {a : α}, Scalar.isFinite a = true → Scalar.negInf < a
  isFinite_of_between : ∀ {a b c : α}, Scalar.isFinite a = true → Scalar.isFinite c = true →
    a ≤ b → b ≤ c → Scalar.isFinite b = true
  isFinite_weighted : ∀ {a : α}, Scalar.isFinite a = true →
    Scalar.isFinite (Scalar.sum [1 * a]) = true

namespace Binary64

open Float.Model Float.Model.UnpackedFloat

/-- A number is finite if its rank lies between those of the infinities. -/
theorem isFinite_iff_rank {a : Float} :
    Scalar.isFinite a = true ↔ ∃ x, rankOf a = some x ∧ -2 < x.1 ∧ x.1 < 2 := by
  have hFinite : Scalar.isFinite a = true ↔ a.toModel.unpack.isFinite = true := Iff.rfl
  rw [hFinite]
  unfold rankOf
  cases a.toModel.unpack with
  | notANumber => exact ⟨nofun, fun ⟨_, h, _⟩ => nomatch h⟩
  | infinity s =>
    refine ⟨nofun, fun ⟨x, hx, hLow, hHigh⟩ => ?_⟩
    cases s <;> obtain rfl := Option.some.inj hx <;> contradiction
  | zero s => exact ⟨fun _ => ⟨_, rfl, by decide, by decide⟩, fun _ => rfl⟩
  | finite s m e hm =>
    refine ⟨fun _ => ?_, fun _ => rfl⟩
    cases s with
    | positive => exact ⟨_, rfl, show (-2 : Int) < 1 by decide, show (1 : Int) < 2 by decide⟩
    | negative => exact ⟨_, rfl, show (-2 : Int) < -1 by decide, show (-1 : Int) < 2 by decide⟩

/-- Finite numbers lie below infinity. -/
theorem le_posInf {a : Float} (h : Scalar.isFinite a = true) : a ≤ (Scalar.posInf : Float) := by
  obtain ⟨x, hx, -, hHigh⟩ := isFinite_iff_rank.mp h
  have hTop : rankOf (Scalar.posInf : Float) = some (2, 0, 0) := by decide +kernel
  refine le_iff.mpr ⟨x, _, hx, hTop, ?_⟩
  unfold byRank compareLex compareOn
  rw [Int.compare_eq_lt.mpr hHigh]
  rfl

/-- The sign class comes first. -/
theorem fst_le_of_byRank {x y : Int × Int × Int} (h : (byRank x y).isLE = true) : x.1 ≤ y.1 := by
  by_contra hAbove
  have hFirst : compare x.1 y.1 = .gt := Int.compare_eq_gt.mpr (Int.not_le.mp hAbove)
  unfold byRank compareLex compareOn at h
  rw [hFirst] at h
  exact nomatch h

/-- Multiplying by one changes no stored number. -/
theorem one_mul_eq (s : Sign) {m : Nat} {e : Int} (h : Canonical m e) :
    UnpackedFloat.mul Format.binary64 (.finite .positive (2 ^ 52) (-52) (by decide))
      (.finite s m e h.positive) = .finite s m e h.positive := by
  have hSign : Sign.positive * s = s := by cases s <;> rfl
  show roundWithAccuracy Format.binary64 (.positive * s) (2 ^ 52 * m) (-52 + e) .exact = _
  rw [hSign, Nat.mul_comm, add_comm]
  exact roundWithAccuracy_canonical s h 52

theorem unpack_weighted (a : Float) :
    (Scalar.sum [1 * a]).toModel.unpack = (Float.Model.pack (UnpackedFloat.add Format.binary64
      (.zero .negative) (Float.Model.pack (UnpackedFloat.mul Format.binary64
        (.finite .positive (2 ^ 52) (-52) (by decide)) a.toModel.unpack)).unpack)).unpack := by
  have hOne : (1 : Float).toModel.unpack = .finite .positive (2 ^ 52) (-52) (by decide) := rfl
  rw [← hOne]
  rfl

theorem isFinite_weighted {a : Float} (h : Scalar.isFinite a = true) :
    Scalar.isFinite (Scalar.sum [1 * a]) = true := by
  have hFinite : a.toModel.unpack.isFinite = true := h
  show (Scalar.sum [1 * a]).toModel.unpack.isFinite = true
  rw [unpack_weighted]
  -- by the kinds of number; a finite one is multiplied by one and added to zero without rounding
  cases ha : a.toModel.unpack with
  | notANumber =>
    rw [ha] at hFinite
    exact nomatch hFinite
  | infinity s =>
    rw [ha] at hFinite
    exact nomatch hFinite
  | zero s => cases s <;> rfl
  | finite s m e hm =>
    obtain ⟨hCanonical, hFits⟩ := canonical_of_unpack ha
    have hStored := unpack_pack (s := s) hCanonical
    rw [if_pos hFits] at hStored
    rw [one_mul_eq s hCanonical, hStored]
    show (Float.Model.pack (.finite s m e hm)).unpack.isFinite = true
    rw [hStored]
    rfl

end Binary64

instance instExtendedFloat : ExtendedScalar Float where
  negInf_lt := by
    intro a ha
    obtain ⟨x, hx, hLow, -⟩ := Binary64.isFinite_iff_rank.mp ha
    have hBottom : Binary64.rankOf (Scalar.negInf : Float) = some (-2, 0, 0) := by decide +kernel
    refine Binary64.lt_iff.mpr ⟨_, x, hBottom, hx, ?_⟩
    unfold Binary64.byRank compareLex compareOn
    rw [Int.compare_eq_lt.mpr hLow]
    rfl
  isFinite_of_between := by
    intro a b c ha hc hab hbc
    obtain ⟨x, hx, hLow, -⟩ := Binary64.isFinite_iff_rank.mp ha
    obtain ⟨z, hz, -, hHigh⟩ := Binary64.isFinite_iff_rank.mp hc
    obtain ⟨x', y, hx', hy, hxy⟩ := Binary64.le_iff.mp hab
    obtain ⟨y', z', hy', hz', hyz⟩ := Binary64.le_iff.mp hbc
    obtain rfl : x = x' := Option.some.inj (hx.symm.trans hx')
    obtain rfl : y = y' := Option.some.inj (hy.symm.trans hy')
    obtain rfl : z = z' := Option.some.inj (hz.symm.trans hz')
    exact Binary64.isFinite_iff_rank.mpr ⟨y, hy, hLow.trans_le (Binary64.fst_le_of_byRank hxy),
      (Binary64.fst_le_of_byRank hyz).trans_lt hHigh⟩
  isFinite_weighted := Binary64.isFinite_weighted

end SwapSearch
