import Mathlib
import SwapSearch.Proofs.Scalar.Exact

/-!
# SwapSearch — what rounding respects

Floating point keeps none of the laws of a field, but it does not lose its bearings
either. A number that has an exact representation is rounded to itself, and no sum is
rounded past such a number: what lies above it exactly lies at or above it once
rounded. Of this the search needs three consequences.

* `FaithfulScalar` — what compares is a number, what beats a value lies above it, the
  mean of a single value is that value, and negative infinity is a number.
* `instFaithfulFloat` — binary64 numbers are such scalars.
* `ExactScalar.faithfulScalar` — so are those of exact arithmetic.

The argument for binary64 counts magnitudes in units of the least positive number.
In these units a stored number, a sum before rounding and a sum after rounding are
natural numbers, and rounding divides by a power of two, up or down.

## Results

* `Canonical.le_iff`      — stored numbers are ordered by exponent, then mantissa.
* `exists_round`          — no stored number comes between a sum and its rounding.
* `le_add_tolerance`      — adding the tolerance lowers nothing.
* `mean_beq`              — the mean of a single value is that value.
-/

namespace SwapSearch

/-- Comparisons and means that rounding does not upset. -/
class FaithfulScalar (α : Type) [Scalar α] : Prop where
  isNaN_of_le : ∀ {a b : α}, a ≤ b → Scalar.isNaN a = false ∧ Scalar.isNaN b = false
  lt_of_beats : ∀ {a b : α}, Scalar.beats a b = true → b < a
  mean_singleton : ∀ {a : α}, Scalar.isFinite a = true → (Scalar.mean [a] == a) = true
  isNaN_negInf : Scalar.isNaN (Scalar.negInf : α) = false

namespace Binary64

open Float.Model Float.Model.UnpackedFloat

-- ---------------------------------------------------------------------------
-- Stored numbers
-- ---------------------------------------------------------------------------

/-- A mantissa and an exponent as a number stores them: at most 53 bits, all of them in use unless
the exponent is the least there is. -/
structure Canonical (m : Nat) (e : Int) : Prop where
  positive : 0 < m
  lt : m < 2 ^ 53
  least : -1074 ≤ e
  normal : 2 ^ 52 ≤ m ∨ e = -1074

/-- The magnitude in units of the least positive number, `2 ^ -1074`. -/
def magnitude (m : Nat) (e : Int) : Nat := m * 2 ^ (e + 1074).toNat

/-- Raising the exponent multiplies the magnitude. -/
theorem magnitude_add (m : Nat) {e : Int} (he : -1074 ≤ e) (k : Nat) :
    magnitude m (e + k) = magnitude (m * 2 ^ k) e := by
  have hShift : (e + k + 1074).toNat = k + (e + 1074).toNat := by omega
  unfold magnitude
  rw [hShift, pow_add, mul_assoc]

theorem magnitude_le_iff {m m' : Nat} {e : Int} :
    magnitude m e ≤ magnitude m' e ↔ m ≤ m' :=
  Nat.mul_le_mul_right_iff (by positivity)

/-- A mantissa of 53 bits outweighs any other with a smaller exponent. -/
theorem magnitude_lt_of_lt {m m' : Nat} {e e' : Int} (hLt : m < 2 ^ 53) (hNormal : 2 ^ 52 ≤ m')
    (he : -1074 ≤ e) (hExponent : e < e') : magnitude m e < magnitude m' e' := by
  obtain ⟨k, rfl⟩ : ∃ k : Nat, e' = e + (k + 1 : Nat) := ⟨(e' - e - 1).toNat, by omega⟩
  rw [magnitude_add m' he]
  refine Nat.mul_lt_mul_of_pos_right ?_ (by positivity)
  calc m < 2 ^ 52 * 2 := hLt
    _ ≤ m' * 2 ^ (k + 1) := by
      refine Nat.mul_le_mul hNormal ?_
      exact Nat.le_self_pow (Nat.succ_ne_zero k) 2

/-- Stored numbers are ordered by their exponents first. -/
theorem Canonical.le_iff {m m' : Nat} {e e' : Int} (h : Canonical m e) (h' : Canonical m' e') :
    magnitude m e ≤ magnitude m' e' ↔ e < e' ∨ e = e' ∧ m ≤ m' := by
  rcases lt_trichotomy e e' with hLt | rfl | hGt
  · have hNormal : 2 ^ 52 ≤ m' := h'.normal.resolve_right (by have := h.least; omega)
    have hMagnitude := magnitude_lt_of_lt h.lt hNormal h.least hLt
    exact ⟨fun _ => Or.inl hLt, fun _ => hMagnitude.le⟩
  · rw [magnitude_le_iff]
    simp
  · have hNormal : 2 ^ 52 ≤ m := h.normal.resolve_right (by have := h'.least; omega)
    have hMagnitude := magnitude_lt_of_lt h'.lt hNormal h'.least hGt
    constructor
    · intro hLe
      omega
    · rintro (hLt | ⟨rfl, -⟩) <;> omega

-- ---------------------------------------------------------------------------
-- Rounding
-- ---------------------------------------------------------------------------

theorem mantissa_shiftRight (x : ExtendedMantissa) (k : Nat) :
    (x >>> k).mantissa = x.mantissa / 2 ^ k := by
  induction k with
  | zero => exact (Nat.div_one _).symm
  | succ k ih =>
    show (x >>> k).mantissa / 2 = _
    rw [ih, Nat.div_div_eq_div_mul, pow_succ]

/-- Nothing is lost by shifting out zeros. -/
theorem shiftRight_exact (m k : Nat) :
    (⟨m * 2 ^ k, false, false⟩ : ExtendedMantissa) >>> k = ⟨m, false, false⟩ := by
  induction k generalizing m with
  | zero => exact congrArg (ExtendedMantissa.mk · false false) (Nat.mul_one m)
  | succ k ih =>
    have hSplit : m * 2 ^ (k + 1) = (m * 2) * 2 ^ k := by ring
    show ExtendedMantissa.shiftRightOne ((⟨m * 2 ^ (k + 1), false, false⟩ : ExtendedMantissa) >>> k)
      = _
    rw [hSplit, ih]
    simp [ExtendedMantissa.shiftRightOne]

theorem roundedMantissa_bounds (x : ExtendedMantissa) :
    x.mantissa ≤ x.roundedMantissa ∧ x.roundedMantissa ≤ x.mantissa + 1 := by
  obtain ⟨m, half, rest⟩ := x
  cases half <;> cases rest <;>
    simp [ExtendedMantissa.roundedMantissa, ExtendedMantissa.accuracy,
      Accuracy.roundToNearestEven]
  omega

/-- The mantissa `m` after rounding `k` bits off. -/
def rounded (m k : Nat) : Nat :=
  ((⟨m, false, false⟩ : ExtendedMantissa) >>> k).roundedMantissa

theorem rounded_bounds (m k : Nat) : m / 2 ^ k ≤ rounded m k ∧ rounded m k ≤ m / 2 ^ k + 1 := by
  have hBounds := roundedMantissa_bounds ((⟨m, false, false⟩ : ExtendedMantissa) >>> k)
  rwa [mantissa_shiftRight] at hBounds

theorem rounded_exact (m k : Nat) : rounded (m * 2 ^ k) k = m := by
  unfold rounded
  rw [shiftRight_exact]
  rfl

/-- What is at most the mantissa stays so. -/
theorem le_rounded {c m k : Nat} (h : c * 2 ^ k ≤ m) : c ≤ rounded m k :=
  ((Nat.le_div_iff_mul_le (by positivity)).mpr h).trans (rounded_bounds m k).1

/-- So does what is at least the mantissa. -/
theorem rounded_le {c m k : Nat} (h : m ≤ c * 2 ^ k) : rounded m k ≤ c := by
  rcases h.eq_or_lt with rfl | hLt
  · exact (rounded_exact c k).le
  · have hQuotient : m / 2 ^ k < c := (Nat.div_lt_iff_lt_mul (by positivity)).mpr hLt
    exact (rounded_bounds m k).2.trans hQuotient

/-- The exponent at which 53 bits of the mantissa are left. -/
def target (m : Nat) (e : Int) : Int := max (m.log2 + e - 52) (-1074)

theorem targetExponent_eq (m : Nat) (e : Int) :
    Format.binary64.targetExponent (totalExponent m e) = target m e := by
  unfold Format.targetExponent totalExponent target
  show max _ (-1074) = _
  congr 1
  show (m.log2 : Int) + 1 + e - 53 = _
  ring

theorem shiftToTarget_eq (m : Nat) (e : Int) :
    shiftToTargetExponent Format.binary64 m e .exact =
      ((⟨m, false, false⟩ : ExtendedMantissa) >>> (target m e - e).toNat,
        e + (target m e - e).toNat) := by
  rw [← targetExponent_eq]
  rfl

/-- Numbers of at most 53 bits fit as they are. -/
theorem shiftToTarget_of_lt {m : Nat} {e : Int} (hLt : m < 2 ^ 53) (he : -1074 ≤ e) :
    shiftToTargetExponent Format.binary64 m e .exact = (⟨m, false, false⟩, e) := by
  have hLog : m.log2 ≤ 52 := by
    rcases eq_or_ne m 0 with rfl | hNe
    · decide
    · have := (Nat.log2_lt hNe).mpr hLt
      omega
  have hTarget : target m e ≤ e := max_le (by omega) he
  rw [shiftToTarget_eq, Int.toNat_of_nonpos (by omega)]
  exact congrArg _ (add_zero e)

/-- A carry out of the highest bit leaves a power of two, whose last bit is zero. -/
theorem shiftToTarget_carry {e : Int} (he : -1074 ≤ e) :
    shiftToTargetExponent Format.binary64 (2 ^ 53) e .exact =
      (⟨2 ^ 52, false, false⟩, e + 1) := by
  have hTarget : target (2 ^ 53) e = e + 1 := by
    unfold target
    rw [Nat.log2_two_pow]
    exact (max_eq_left (by push_cast; omega)).trans (by push_cast; ring)
  rw [shiftToTarget_eq, hTarget, add_sub_cancel_left]
  rfl

/-- What is left after rounding has at most 53 bits, or is one more than such a number; it has 53
bits, unless the exponent is the least there is. -/
theorem rounded_target {m : Nat} {e : Int} (hm : 0 < m) (hLeast : -1074 ≤ e)
    (hTarget : e ≤ target m e) :
    0 < rounded m (target m e - e).toNat ∧ rounded m (target m e - e).toNat ≤ 2 ^ 53 ∧
      (2 ^ 52 ≤ rounded m (target m e - e).toNat ∨ target m e = -1074) := by
  obtain ⟨k, hk⟩ : ∃ k : Nat, target m e = e + k := ⟨(target m e - e).toNat, by omega⟩
  have hShift : (target m e - e).toNat = k := by omega
  rw [hShift]
  unfold target at hk
  have hUpper : rounded m k ≤ 2 ^ 53 := by
    refine rounded_le (Nat.lt_log2_self.le.trans ?_)
    rw [← pow_add]
    exact Nat.pow_le_pow_right (by decide) (by omega)
  rcases le_or_gt ((m.log2 : Int) + e - 52) (-1074) with hFlat | hSteep
  · -- the exponent is the least there is, so nothing is rounded off
    obtain rfl : k = 0 := by omega
    have hSame : rounded m 0 = m := by simpa using rounded_exact m 0
    exact ⟨hSame ▸ hm, hUpper, Or.inr (max_eq_right hFlat)⟩
  · have hLower : 2 ^ 52 ≤ rounded m k := by
      refine le_rounded (le_trans ?_ (Nat.log2_self_le hm.ne'))
      rw [← pow_add]
      exact Nat.pow_le_pow_right (by decide) (by omega)
    exact ⟨lt_of_lt_of_le (by positivity) hLower, hUpper, Or.inl hLower⟩

/-- What rounding has left becomes a stored number of the same magnitude, also after a carry. -/
theorem exists_carried (s : Sign) {r : Nat} {x : Int} (hPositive : 0 < r) (hUpper : r ≤ 2 ^ 53)
    (hNormal : 2 ^ 52 ≤ r ∨ x = -1074) (hLeast : -1074 ≤ x) :
    ∃ m' e', ∃ h : Canonical m' e',
      (let shifted := shiftToTargetExponent Format.binary64 r x .exact
      if h : shifted.1.mantissa = 0 then UnpackedFloat.zero s
      else .finite s shifted.1.mantissa shifted.2 (Nat.pos_of_ne_zero h)) =
        .finite s m' e' h.positive ∧
      magnitude m' e' = magnitude r x := by
  rcases hUpper.eq_or_lt with rfl | hLt
  · refine ⟨2 ^ 52, x + 1, ⟨by positivity, by decide, by omega, Or.inl le_rfl⟩, ?_, ?_⟩
    · rw [shiftToTarget_carry hLeast]
      exact dif_neg (show 2 ^ 52 ≠ 0 by decide)
    · exact magnitude_add (2 ^ 52) hLeast 1
  · refine ⟨r, x, ⟨hPositive, hLt, hLeast, hNormal⟩, ?_, rfl⟩
    rw [shiftToTarget_of_lt hLt hLeast]
    exact dif_neg hPositive.ne'

/-- Rounding leaves a stored number, of the magnitude that rounding off has left. -/
theorem exists_roundWithAccuracy (s : Sign) {m : Nat} {e : Int} (hm : 0 < m)
    (hLeast : -1074 ≤ e) (hTarget : e ≤ target m e) :
    ∃ m' e', ∃ h : Canonical m' e',
      roundWithAccuracy Format.binary64 s m e .exact = .finite s m' e' h.positive ∧
      magnitude m' e' = magnitude (rounded m (target m e - e).toNat) (target m e) := by
  obtain ⟨hPositive, hUpper, hNormal⟩ := rounded_target hm hLeast hTarget
  have hExponent : e + (target m e - e).toNat = target m e := by omega
  unfold roundWithAccuracy
  rw [shiftToTarget_eq, hExponent]
  exact exists_carried s hPositive hUpper hNormal (hLeast.trans hTarget)

/-- No stored number comes between a magnitude and its rounding. -/
theorem magnitude_rounded {m c : Nat} {e x : Int} (hm : 0 < m) (hLeast : -1074 ≤ e)
    (hTarget : e ≤ target m e) (hc : Canonical c x) :
    (magnitude c x ≤ magnitude m e →
      magnitude c x ≤ magnitude (rounded m (target m e - e).toNat) (target m e)) ∧
    (magnitude m e ≤ magnitude c x →
      magnitude (rounded m (target m e - e).toNat) (target m e) ≤ magnitude c x) := by
  obtain ⟨k, hk⟩ : ∃ k : Nat, target m e = e + k := ⟨(target m e - e).toNat, by omega⟩
  have hShift : (target m e - e).toNat = k := by omega
  have hLeast' : -1074 ≤ target m e := hLeast.trans hTarget
  obtain ⟨-, -, hNormal⟩ := rounded_target hm hLeast hTarget
  rw [hShift] at hNormal ⊢
  rcases le_or_gt (target m e) x with hCoarse | hFine
  · -- a multiple of the unit that is left
    obtain ⟨j, rfl⟩ : ∃ j : Nat, x = target m e + j := ⟨(x - target m e).toNat, by omega⟩
    have hUnit : magnitude (c * 2 ^ j) (target m e) = magnitude (c * 2 ^ j * 2 ^ k) e := by
      rw [hk]
      exact magnitude_add _ hLeast k
    rw [magnitude_add c hLeast', magnitude_le_iff, magnitude_le_iff, hUnit, magnitude_le_iff,
      magnitude_le_iff]
    exact ⟨le_rounded, rounded_le⟩
  · -- below the unit that is left, where the mantissa is full
    have hSteep : target m e ≠ -1074 := by
      have := hc.least
      omega
    have hBelow : magnitude c x < magnitude (rounded m k) (target m e) :=
      magnitude_lt_of_lt hc.lt (hNormal.resolve_right hSteep) hc.least hFine
    refine ⟨fun _ => hBelow.le, fun hLe => absurd hLe (not_le.mpr ?_)⟩
    have hLog : m.log2 = 52 + k := by
      unfold target at hk hSteep
      omega
    have hFull : 2 ^ 52 * 2 ^ k ≤ m := by
      rw [← pow_add, ← hLog]
      exact Nat.log2_self_le hm.ne'
    calc magnitude c x < magnitude (2 ^ 52) (target m e) :=
          magnitude_lt_of_lt hc.lt le_rfl hc.least hFine
      _ = magnitude (2 ^ 52 * 2 ^ k) e := by
          rw [hk]
          exact magnitude_add _ hLeast k
      _ ≤ magnitude m e := magnitude_le_iff.mpr hFull

theorem log2_mul_two_pow {m : Nat} (hm : 0 < m) (k : Nat) : (m * 2 ^ k).log2 = m.log2 + k := by
  refine (Nat.log2_eq_iff (by positivity)).mpr ⟨?_, ?_⟩
  · rw [pow_add]
    exact Nat.mul_le_mul_right _ (Nat.log2_self_le hm.ne')
  · rw [add_right_comm, pow_add]
    exact Nat.mul_lt_mul_of_pos_right Nat.lt_log2_self (by positivity)

theorem target_mul_two_pow {m : Nat} (hm : 0 < m) (e : Int) (k : Nat) :
    target (m * 2 ^ k) (e - k) = target m e := by
  unfold target
  rw [log2_mul_two_pow hm]
  congr 1
  push_cast
  ring

/-- **Rounding is faithful.** It leads to a stored number, and passes no stored number. -/
theorem exists_round (s : Sign) {m : Nat} {e : Int} (hm : 0 < m) (hLeast : -1074 ≤ e) :
    ∃ m' e', ∃ h : Canonical m' e',
      UnpackedFloat.round Format.binary64 s m e = .finite s m' e' h.positive ∧
      ∀ c x, Canonical c x →
        (magnitude c x ≤ magnitude m e → magnitude c x ≤ magnitude m' e') ∧
        (magnitude m e ≤ magnitude c x → magnitude m' e' ≤ magnitude c x) := by
  -- first the exponent is lowered to the target, if it is above
  have hFloor : -1074 ≤ target m e := le_max_right _ _
  obtain ⟨k, hk⟩ : ∃ k, k = (e - target m e).toNat := ⟨_, rfl⟩
  have hm' : 0 < m * 2 ^ k := by positivity
  have hSame := target_mul_two_pow hm e k
  have hLeast' : -1074 ≤ e - k := by omega
  have hTarget : e - k ≤ target (m * 2 ^ k) (e - k) := by omega
  have hMagnitude : magnitude m e = magnitude (m * 2 ^ k) (e - k) := by
    rw [← magnitude_add m hLeast' k, sub_add_cancel]
  have hRound : UnpackedFloat.round Format.binary64 s m e =
      roundWithAccuracy Format.binary64 s (m * 2 ^ k) (e - k) .exact := by
    rw [← Nat.shiftLeft_eq, hk, ← targetExponent_eq]
    rfl
  obtain ⟨m', e', h, hResult, hRounded⟩ := exists_roundWithAccuracy s hm' hLeast' hTarget
  refine ⟨m', e', h, hRound.trans hResult, fun c x hc => ?_⟩
  rw [hMagnitude, hRounded]
  exact magnitude_rounded hm' hLeast' hTarget hc

-- ---------------------------------------------------------------------------
-- Storing
-- ---------------------------------------------------------------------------

/-- The mantissa of 53 bits begins with a bit that is not stored. -/
theorem toNat_implicit (y : BitVec 52) : (1#1 ++ y).toNat = 2 ^ 52 + y.toNat := by
  rw [BitVec.toNat_append, ← Nat.shiftLeft_add_eq_or_of_lt y.isLt]
  rfl

theorem sign_packComponents (s : Sign) (x : BitVec 11) (y : BitVec 52) :
    Sign.ofBitVec (unpackSign (packComponents Format.binary64 s x y)) = s := by
  have hSign : unpackSign (packComponents Format.binary64 s x y) = s.toBitVec := by
    refine BitVec.eq_of_getLsbD_eq fun i hi => ?_
    obtain rfl : i = 0 := by omega
    have hHighest : (s.toBitVec ++ x ++ y).getLsbD 63 = s.toBitVec.getLsbD 0 := by
      rw [BitVec.getLsbD_append, BitVec.getLsbD_append]
      rfl
    simp only [unpackSign, packComponents, BitVec.getLsbD_cast, BitVec.getLsbD_extractLsb]
    exact hHighest
  rw [hSign]
  cases s <;> rfl

theorem unpack_normal (b : BitVec Format.binary64.numBits) (hTop : unpackExponent b ≠ -1#11)
    (hBottom : unpackExponent b ≠ 0#11) :
    UnpackedFloat.unpack Format.binary64 b =
      .finite (Sign.ofBitVec (unpackSign b)) (2 ^ 52 + (unpackMantissa b).toNat)
        ((unpackExponent b).toNat - 1075) (by positivity) := by
  unfold UnpackedFloat.unpack
  dsimp only
  rw [if_neg hTop, if_neg hBottom]
  congr 1
  exact toNat_implicit _

theorem unpack_subnormal (b : BitVec Format.binary64.numBits) (hBottom : unpackExponent b = 0#11)
    (hNonzero : unpackMantissa b ≠ 0#52) :
    UnpackedFloat.unpack Format.binary64 b =
      .finite (Sign.ofBitVec (unpackSign b)) (unpackMantissa b).toNat (-1074)
        (Nat.pos_of_ne_zero fun h => hNonzero (BitVec.eq_of_toNat_eq h)) := by
  have hTop : unpackExponent b ≠ -1#11 := by
    rw [hBottom]
    decide
  unfold UnpackedFloat.unpack
  dsimp only
  rw [if_neg hTop, if_pos hBottom, dif_neg hNonzero]
  congr 1
  rw [hBottom]
  rfl

/-- What a stored finite number looks like. -/
theorem canonical_of_unpack {x : Float.Model} {s : Sign} {m : Nat} {e : Int} {hm : 0 < m}
    (h : x.unpack = .finite s m e hm) : Canonical m e ∧ e ≤ 971 := by
  obtain ⟨b, hb⟩ : ∃ b : BitVec Format.binary64.numBits, b = x.toBits.toBitVec := ⟨_, rfl⟩
  have hUnpack : UnpackedFloat.unpack Format.binary64 b = .finite s m e hm := hb ▸ h
  have hMantissa : (unpackMantissa b).toNat < 2 ^ 52 := (unpackMantissa b).isLt
  have hExponent : (unpackExponent b).toNat < 2 ^ 11 := (unpackExponent b).isLt
  -- the exponent field decides: all ones are not finite, zero is subnormal
  by_cases hTop : unpackExponent b = -1#11
  · unfold UnpackedFloat.unpack at hUnpack
    dsimp only at hUnpack
    rw [if_pos hTop] at hUnpack
    split at hUnpack <;> exact nomatch hUnpack
  · by_cases hBottom : unpackExponent b = 0#11
    · by_cases hZero : unpackMantissa b = 0#52
      · unfold UnpackedFloat.unpack at hUnpack
        dsimp only at hUnpack
        rw [if_neg hTop, if_pos hBottom, dif_pos hZero] at hUnpack
        exact nomatch hUnpack
      · rw [unpack_subnormal b hBottom hZero] at hUnpack
        obtain ⟨-, rfl, rfl⟩ := finite.inj hUnpack
        exact ⟨⟨hm, by omega, le_rfl, Or.inr rfl⟩, by decide⟩
    · rw [unpack_normal b hTop hBottom] at hUnpack
      obtain ⟨-, rfl, rfl⟩ := finite.inj hUnpack
      have hTop' : (unpackExponent b).toNat ≠ 2047 :=
        fun hEq => hTop (BitVec.eq_of_toNat_eq hEq)
      have hBottom' : (unpackExponent b).toNat ≠ 0 :=
        fun hEq => hBottom (BitVec.eq_of_toNat_eq hEq)
      exact ⟨⟨hm, by omega, by omega, Or.inl (by omega)⟩, by omega⟩

theorem unpack_components {s : Sign} {x : BitVec 11} {y : BitVec 52} {m : Nat} {e : Int}
    (hm : 0 < m) (hTop : x.toNat ≠ 2047) (hBottom : x.toNat ≠ 0) (hMantissa : m = 2 ^ 52 + y.toNat)
    (hExponent : e = x.toNat - 1075) :
    UnpackedFloat.unpack Format.binary64 (packComponents Format.binary64 s x y) =
      .finite s m e hm := by
  subst hMantissa hExponent
  rw [unpack_normal]
  · congr 1
    · exact sign_packComponents s x y
    · rw [unpackMantissa_packComponents]
    · rw [unpackExponent_packComponents]
  · rw [unpackExponent_packComponents]
    exact fun hEq => hTop (congrArg BitVec.toNat hEq)
  · rw [unpackExponent_packComponents]
    exact fun hEq => hBottom (congrArg BitVec.toNat hEq)

theorem unpack_components_subnormal {s : Sign} {y : BitVec 52} {m : Nat} (hm : 0 < m)
    (hMantissa : m = y.toNat) :
    UnpackedFloat.unpack Format.binary64 (packComponents Format.binary64 s 0#11 y) =
      .finite s m (-1074) hm := by
  subst hMantissa
  rw [unpack_subnormal _ unpackExponent_packComponents]
  · congr 1
    · exact sign_packComponents s 0#11 y
    · rw [unpackMantissa_packComponents]
  · rw [unpackMantissa_packComponents]
    rintro rfl
    exact absurd hm (lt_irrefl 0)

/-- A number that fits is stored as it is; one that is too large is stored as infinity. -/
theorem unpack_pack {s : Sign} {m : Nat} {e : Int} (h : Canonical m e) :
    (Float.Model.pack (.finite s m e h.positive)).unpack =
      if e ≤ 971 then .finite s m e h.positive else .infinity s := by
  obtain ⟨hPositive, hLt, hLeast, hNormal⟩ := h
  show UnpackedFloat.unpack Format.binary64
    (if 2 ^ 11 ≤ (e + 1023 + 52).toNat + 1 then packedInfinity Format.binary64 s
    else if m.log2 + 1 = 53 then
      packComponents Format.binary64 s (BitVec.ofNat 11 (e + 1023 + 52).toNat) (BitVec.ofNat 52 m)
    else packComponents Format.binary64 s 0#11 (BitVec.ofNat 52 m)) = _
  by_cases hFits : e ≤ 971
  · rw [if_pos hFits, if_neg (by omega)]
    -- with the leading bit the exponent is stored, without it the field is zero
    by_cases hFull : 2 ^ 52 ≤ m
    · have hLog : m.log2 = 52 := (Nat.log2_eq_iff hPositive.ne').mpr ⟨hFull, hLt⟩
      have hExponent : (BitVec.ofNat 11 (e + 1023 + 52).toNat).toNat = (e + 1075).toNat := by
        rw [BitVec.toNat_ofNat]
        omega
      have hMantissa : (BitVec.ofNat 52 m).toNat = m - 2 ^ 52 := by
        rw [BitVec.toNat_ofNat]
        omega
      rw [if_pos (by omega)]
      exact unpack_components hPositive (by omega) (by omega) (by omega) (by omega)
    · have hLog : m.log2 ≠ 52 := fun hEq => hFull (hEq ▸ Nat.log2_self_le hPositive.ne')
      have hMantissa : (BitVec.ofNat 52 m).toNat = m := by
        rw [BitVec.toNat_ofNat]
        omega
      obtain rfl : e = -1074 := hNormal.resolve_left hFull
      rw [if_neg (by omega)]
      exact unpack_components_subnormal hPositive hMantissa.symm
  · rw [if_neg hFits, if_pos (by omega)]
    cases s <;> rfl

theorem unpack_pack_infinity (s : Sign) :
    (Float.Model.pack (.infinity s)).unpack = .infinity s := by
  cases s <;> rfl

theorem unpack_pack_zero (s : Sign) : (Float.Model.pack (.zero s)).unpack = .zero s := by
  cases s <;> rfl

-- ---------------------------------------------------------------------------
-- Sums and quotients
-- ---------------------------------------------------------------------------

theorem isLE_then_iff {d e : Int} {m n : Nat} :
    ((compare d e).then (compare m n)).isLE = true ↔ d < e ∨ d = e ∧ m ≤ n := by
  rw [Ordering.isLE_then_iff_or, Int.compare_eq_lt, Int.compare_eq_eq, Nat.isLE_compare]

theorem byRank_positive_isLE {d e : Int} {m n : Nat} :
    (byRank (1, d, m) (1, e, n)).isLE = true ↔ d < e ∨ d = e ∧ m ≤ n := by
  rw [byRank_positive, isLE_then_iff]

theorem byRank_negative_isLE {d e : Int} {m n : Nat} :
    (byRank (-1, -d, -m) (-1, -e, -n)).isLE = true ↔ e < d ∨ e = d ∧ n ≤ m := by
  rw [byRank_negative, Ordering.swap_then, Int.compare_swap, Nat.compare_swap, isLE_then_iff]

/-- Storing a positive number does not take it below what it was at or above. -/
theorem exists_rank_pack {x : Int × Int × Int} {m : Nat} {e : Int} (h : Canonical m e)
    (hx : (byRank x (1, e, m)).isLE = true) :
    ∃ y, rank (Float.Model.pack (.finite .positive m e h.positive)).unpack = some y ∧
      (byRank x y).isLE = true := by
  rw [unpack_pack h]
  split
  · exact ⟨_, rfl, hx⟩
  · exact ⟨_, rfl, Std.TransCmp.isLE_trans hx rfl⟩

/-- Both summands are counted in the smaller of their units. -/
theorem magnitude_min (m : Nat) {e d : Int} (he : -1074 ≤ e) (hd : -1074 ≤ d) :
    magnitude (m <<< (e - min e d).toNat) (min e d) = magnitude m e := by
  rw [Nat.shiftLeft_eq, ← magnitude_add m (le_min he hd)]
  congr 1
  omega

/-- A sum at or above a stored number is so once it is rounded and stored. -/
theorem exists_rank_normalize {s : Sign} {m m₁ : Nat} {e u : Int} {hm : 0 < m}
    {x : Int × Int × Int} {sum : Int} (h : Canonical m e) (hFits : e ≤ 971) (hLeast : -1074 ≤ u)
    (hMagnitude : magnitude m₁ u = magnitude m e) (hSum : s.apply m₁ ≤ sum)
    (hx : rank (.finite s m e hm) = some x) :
    ∃ y, rank (Float.Model.pack
        (UnpackedFloat.normalize Format.binary64 sum u .positive)).unpack = some y ∧
      (byRank x y).isLE = true := by
  unfold UnpackedFloat.normalize
  cases s with
  | positive =>
    -- the sum is positive too
    obtain rfl := Option.some.inj hx
    have hLower : (m₁ : Int) ≤ sum := hSum
    have hPositive : 0 < m₁ := by
      refine Nat.pos_of_ne_zero fun hZero => ?_
      rw [hZero] at hMagnitude
      have : 0 < magnitude m e := Nat.mul_pos h.positive (by positivity)
      unfold magnitude at hMagnitude this
      omega
    rw [Int.compare_eq_gt.mpr (by omega)]
    obtain ⟨m', e', h', hRound, hFaithful⟩ :=
      exists_round .positive (show 0 < sum.toNat by omega) hLeast
    dsimp only
    rw [hRound]
    refine exists_rank_pack h' (byRank_positive_isLE.mpr ((h.le_iff h').mp ?_))
    exact (hFaithful m e h).1 (hMagnitude ▸ magnitude_le_iff.mpr (by omega))
  | negative =>
    obtain rfl := Option.some.inj hx
    have hLower : -(m₁ : Int) ≤ sum := hSum
    -- the sum may be negative still, or zero, or positive
    rcases lt_trichotomy sum 0 with hLt | rfl | hGt
    · rw [Int.compare_eq_lt.mpr hLt]
      obtain ⟨m', e', h', hRound, hFaithful⟩ :=
        exists_round .negative (show 0 < (-sum).toNat by omega) hLeast
      have hBelow := (h'.le_iff h).mp
        ((hFaithful m e h).2 (hMagnitude ▸ magnitude_le_iff.mpr (by omega)))
      dsimp only
      rw [hRound, unpack_pack h', if_pos (by omega)]
      exact ⟨_, rfl, byRank_negative_isLE.mpr hBelow⟩
    · rw [Int.compare_eq_eq.mpr rfl]
      dsimp only
      rw [unpack_pack_zero]
      exact ⟨_, rfl, rfl⟩
    · rw [Int.compare_eq_gt.mpr hGt]
      obtain ⟨m', e', h', hRound, -⟩ :=
        exists_round .positive (show 0 < sum.toNat by omega) hLeast
      dsimp only
      rw [hRound]
      exact exists_rank_pack h' rfl

/-- A sum with a positive number is not below the other summand. -/
theorem exists_rank_add {a : Float} {x : Int × Int × Int} {n : Nat} {d : Int} (hc : Canonical n d)
    (hx : rankOf a = some x) :
    ∃ y, rank (Float.Model.pack (UnpackedFloat.add Format.binary64 a.toModel.unpack
        (.finite .positive n d hc.positive))).unpack = some y ∧
      (byRank x y).isLE = true := by
  unfold rankOf at hx
  cases ha : a.toModel.unpack with
  | notANumber =>
    rw [ha] at hx
    exact nomatch hx
  | infinity s =>
    show ∃ y, rank (Float.Model.pack (.infinity s)).unpack = some y ∧ _
    rw [ha] at hx
    rw [unpack_pack_infinity]
    exact ⟨x, hx, Std.ReflCmp.isLE_rfl⟩
  | zero s =>
    rw [ha] at hx
    obtain rfl := Option.some.inj hx
    exact exists_rank_pack hc rfl
  | finite s m e hm =>
    rw [ha] at hx
    obtain ⟨h, hFits⟩ := canonical_of_unpack ha
    -- both are brought to the smaller exponent and added as integers
    refine exists_rank_normalize h hFits (le_min h.least hc.least)
      (magnitude_min m h.least hc.least) ?_ hx
    exact le_add_of_nonneg_right (Int.natCast_nonneg _)

/-- Adding the tolerance lowers nothing. -/
theorem le_add_tolerance {a : Float} {x : Int × Int × Int} (hx : rankOf a = some x) :
    a ≤ a + Scalar.tolerance := by
  have hTolerance : Canonical 7555786372591432 (-76) :=
    ⟨by decide, by decide, by decide, Or.inl (by decide)⟩
  obtain ⟨y, hy, hLe⟩ := exists_rank_add hTolerance hx
  exact le_iff.mpr ⟨x, y, hx, hy, hLe⟩

/-- What is not a number remains none when something is added. -/
theorem rankOf_add {a : Float} (h : rankOf a = none) (b : Float) : rankOf (a + b) = none := by
  unfold rankOf at h ⊢
  have hAdd : (a + b).toModel.unpack = (Float.Model.pack (UnpackedFloat.add Format.binary64
    a.toModel.unpack b.toModel.unpack)).unpack := rfl
  rw [hAdd]
  cases ha : a.toModel.unpack with
  | notANumber =>
    show rank (Float.Model.pack .notANumber).unpack = none
    rfl
  | infinity s =>
    rw [ha] at h
    cases s <;> exact nomatch h
  | zero s =>
    rw [ha] at h
    exact nomatch h
  | finite s m e hm =>
    rw [ha] at h
    cases s <;> exact nomatch h

/-- A stored number with zeros added is rounded to itself. -/
theorem roundWithAccuracy_canonical (s : Sign) {m : Nat} {e : Int} (h : Canonical m e) (k : Nat) :
    roundWithAccuracy Format.binary64 s (m * 2 ^ k) (e - k) .exact = .finite s m e h.positive := by
  have hLog : m.log2 ≤ 52 := by
    have := (Nat.log2_lt h.positive.ne').mpr h.lt
    omega
  -- the exponent of a stored number is its own target
  have hTarget : target m e = e := by
    have := h.least
    unfold target
    rcases h.normal with hFull | hLeast
    · have := (Nat.le_log2 h.positive.ne').mpr hFull
      omega
    · omega
  -- zeros below do not move the target, so exactly they are shifted out
  have hSame : target (m * 2 ^ k) (e - k) = e :=
    (target_mul_two_pow h.positive e k).trans hTarget
  have hShift : (e - (e - k)).toNat = k := by omega
  unfold roundWithAccuracy
  rw [shiftToTarget_eq, hSame, hShift, sub_add_cancel]
  show (let shifted := shiftToTargetExponent Format.binary64 (rounded (m * 2 ^ k) k) e .exact
    if h : shifted.1.mantissa = 0 then UnpackedFloat.zero s
    else .finite s shifted.1.mantissa shifted.2 (Nat.pos_of_ne_zero h)) = _
  rw [rounded_exact, shiftToTarget_of_lt h.lt h.least]
  exact dif_neg h.positive.ne'

/-- Dividing by one leaves a stored number, perhaps with a zero added. -/
theorem exists_divCore {m : Nat} {e : Int} (h : Canonical m e) :
    ∃ k : Nat, divCore Format.binary64 m e (2 ^ 52) (-52) = (m * 2 ^ k, e - k, .exact) := by
  obtain ⟨t, ht⟩ : ∃ t, t = min (e - -52) (target m (e - 1)) := ⟨_, rfl⟩
  have hLog : m.log2 ≤ 52 := by
    have := (Nat.log2_lt h.positive.ne').mpr h.lt
    omega
  have hLeast := h.least
  obtain ⟨k, hk⟩ : ∃ k : Nat, t = e - k := ⟨(e - t).toNat, by unfold target at ht; omega⟩
  have hShift : (e - -52 - t).toNat = k + 52 := by omega
  -- dividing by one takes the leading bit of one out again
  have hWhole : m <<< (k + 52) = m * 2 ^ k * 2 ^ 52 := by
    rw [Nat.shiftLeft_eq, pow_add, mul_assoc]
  refine ⟨k, ?_⟩
  have hTotal : totalExponent m e - totalExponent (2 ^ 52) (-52) = totalExponent m (e - 1) := by
    unfold totalExponent
    rw [Nat.log2_two_pow]
    push_cast
    ring
  unfold divCore
  rw [hTotal, targetExponent_eq, ← ht]
  dsimp only
  rw [hShift, hWhole, Nat.mul_div_cancel _ (by decide), Nat.mul_mod_left, hk]
  rfl

/-- Dividing by one changes no stored number. -/
theorem div_one_eq (s : Sign) {m : Nat} {e : Int} (h : Canonical m e) :
    UnpackedFloat.div Format.binary64 (.finite s m e h.positive)
      (.finite .positive (2 ^ 52) (-52) (by decide)) = .finite s m e h.positive := by
  obtain ⟨k, hCore⟩ := exists_divCore h
  have hSign : s / Sign.positive = s := by cases s <;> rfl
  unfold UnpackedFloat.div
  dsimp only
  rw [hCore, hSign]
  exact roundWithAccuracy_canonical s h k

theorem unpack_mean_singleton (a : Float) :
    (Scalar.mean [a]).toModel.unpack = (Float.Model.pack (UnpackedFloat.div Format.binary64
      (Float.Model.pack (UnpackedFloat.add Format.binary64 (.zero .negative)
        a.toModel.unpack)).unpack
      (.finite .positive (2 ^ 52) (-52) (by decide)))).unpack := by
  have hOne : ((1 : Nat) : Float).toModel.unpack =
    .finite .positive (2 ^ 52) (-52) (by decide) := rfl
  rw [← hOne]
  rfl

/-- The mean of a single finite value is that value, up to the sign of zero. -/
theorem mean_beq {a : Float} (h : a.isFinite = true) : (Scalar.mean [a] == a) = true := by
  have hFinite : a.toModel.unpack.isFinite = true := h
  have hRank : ∃ x, rankOf (Scalar.mean [a]) = some x ∧ rankOf a = some x := by
    unfold rankOf
    rw [unpack_mean_singleton]
    cases ha : a.toModel.unpack with
    | notANumber =>
      rw [ha] at hFinite
      exact nomatch hFinite
    | infinity s =>
      rw [ha] at hFinite
      exact nomatch hFinite
    | zero s => cases s <;> exact ⟨(0, 0, 0), rfl, rfl⟩
    | finite s m e hm =>
      obtain ⟨hCanonical, hFits⟩ := canonical_of_unpack ha
      have hStored := unpack_pack (s := s) hCanonical
      rw [if_pos hFits] at hStored
      show ∃ x, rank (Float.Model.pack (UnpackedFloat.div Format.binary64
        (Float.Model.pack (.finite s m e hm)).unpack _)).unpack = some x ∧ _
      rw [hStored, div_one_eq s hCanonical, hStored]
      cases s <;> exact ⟨_, rfl, rfl⟩
  obtain ⟨x, hHere, hThere⟩ := hRank
  exact beq_iff.mpr ⟨x, x, hHere, hThere, Std.ReflCmp.compare_self⟩

theorem isNaN_of_le {a b : Float} (h : a ≤ b) :
    Scalar.isNaN a = false ∧ Scalar.isNaN b = false := by
  obtain ⟨x, y, hx, hy, -⟩ := le_iff.mp h
  exact ⟨isNaN_of_rankOf hx, isNaN_of_rankOf hy⟩

end Binary64

-- ---------------------------------------------------------------------------
-- Instances
-- ---------------------------------------------------------------------------

instance instFaithfulFloat : FaithfulScalar Float where
  isNaN_of_le := Binary64.isNaN_of_le
  lt_of_beats := by
    intro a b hBeats
    have hLt : b + Scalar.tolerance < a := of_decide_eq_true hBeats
    obtain ⟨_, _, hSum, -, -⟩ := Binary64.lt_iff.mp hLt
    cases hb : Binary64.rankOf b with
    | none => exact nomatch (Binary64.rankOf_add hb _).symm.trans hSum
    | some x =>
      exact OrderedScalar.lt_of_le_of_lt (Binary64.le_add_tolerance hb) hLt
  mean_singleton := Binary64.mean_beq
  isNaN_negInf := by
    have hSelf : ((Scalar.negInf : Float) == Scalar.negInf) = true := by decide +kernel
    simp [Scalar.isNaN, hSelf]

instance ExactScalar.faithfulScalar {α : Type} [ExactScalar α] : FaithfulScalar α where
  isNaN_of_le := by
    intro a b _
    simp [Scalar.isNaN, (ExactScalar.beq_iff_eq _ _).mpr rfl]
  lt_of_beats := ExactScalar.lt_of_beats
  mean_singleton := by
    intro a _
    rw [ExactScalar.beq_iff_eq]
    show ((-0 : α) + a) / ((1 : Nat) : α) = a
    rw [neg_zero, zero_add, Nat.cast_one, div_one]
  isNaN_negInf := by simp [Scalar.isNaN, (ExactScalar.beq_iff_eq _ _).mpr rfl]

end SwapSearch
