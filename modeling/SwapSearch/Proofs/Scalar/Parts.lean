import SwapSearch.Proofs.Scalar.Rounding
import SwapSearch.Word

/-!
# SwapSearch — parts of a whole

A count that has not passed its limit, over the limit, is a number from zero to one, also
where both are rounded and so is their quotient. Rounding is monotone: a mantissa together
with the two bits that are kept of what was shifted out has a place, and neither shifting
nor rounding upsets the order of places. So the larger of two words becomes the larger
number, and a quotient of at most one does not become more than one.

* `PartScalar` — scalars of which a part of a whole is at most the whole.

## Results

* `rounded_mono`     — rounding off bits is monotone.
* `exists_natCast`   — the stored number that a word becomes.
* `exists_div`       — the quotient of a number by a larger one.
* `instPartFloat`    — binary floating point numbers are such scalars.
-/

namespace SwapSearch

/-- Scalars of which a part of a whole, as a quotient of two words, is neither negative nor more
than one. -/
class PartScalar (α : Type) [Scalar α] : Prop where
  part_bounds : ∀ {k n : Nat}, k ≤ n → n ≠ 0 → n < Word.size →
    0 ≤ (k : α) / (n : α) ∧ (k : α) / (n : α) ≤ 1

instance ExactScalar.partScalar {α : Type} [ExactScalar α] : PartScalar α where
  part_bounds := by
    intro k n hk hn _
    have hPositive : (0 : α) < (n : α) := Nat.cast_pos.mpr (Nat.pos_of_ne_zero hn)
    have hCount : (k : α) ≤ (n : α) := Nat.cast_le.mpr hk
    exact ⟨div_nonneg (Nat.cast_nonneg k) hPositive.le, (div_le_one hPositive).mpr hCount⟩

namespace Binary64

open Float.Model Float.Model.UnpackedFloat

-- ---------------------------------------------------------------------------
-- Places
-- ---------------------------------------------------------------------------

/-- Where a mantissa with its two residual bits stands, in quarters of its last place. -/
def quarters (x : ExtendedMantissa) : Nat :=
  4 * x.mantissa + 2 * x.roundBit.toNat + x.stickyBit.toNat

theorem quarters_shiftRightOne (x : ExtendedMantissa) :
    quarters x.shiftRightOne = 2 * x.mantissa + (x.roundBit || x.stickyBit).toNat := by
  have hBit : (x.mantissa % 2 != 0).toNat = x.mantissa % 2 := by
    rcases Nat.mod_two_eq_zero_or_one x.mantissa with h | h <;> rw [h] <;> rfl
  unfold quarters ExtendedMantissa.shiftRightOne
  dsimp only
  rw [hBit]
  omega

/-- Shifting keeps the order of places. -/
theorem quarters_shiftRight {x y : ExtendedMantissa} (h : quarters x ≤ quarters y) (k : Nat) :
    quarters (x >>> k) ≤ quarters (y >>> k) := by
  induction k with
  | zero => exact h
  | succ k ih =>
    show quarters (x >>> k).shiftRightOne ≤ quarters (y >>> k).shiftRightOne
    rw [quarters_shiftRightOne, quarters_shiftRightOne]
    generalize x >>> k = x at ih ⊢
    generalize y >>> k = y at ih ⊢
    obtain ⟨m, half, rest⟩ := x
    obtain ⟨n, half', rest'⟩ := y
    unfold quarters at ih
    cases half <;> cases rest <;> cases half' <;> cases rest' <;> simp at ih ⊢ <;> omega

/-- So does rounding. -/
theorem roundedMantissa_mono {x y : ExtendedMantissa} (h : quarters x ≤ quarters y) :
    x.roundedMantissa ≤ y.roundedMantissa := by
  obtain ⟨m, half, rest⟩ := x
  obtain ⟨n, half', rest'⟩ := y
  unfold quarters at h
  cases half <;> cases rest <;> cases half' <;> cases rest' <;>
    simp [ExtendedMantissa.roundedMantissa, ExtendedMantissa.accuracy,
      Accuracy.roundToNearestEven] at h ⊢ <;> omega

theorem rounded_mono {m n : Nat} (h : m ≤ n) (k : Nat) : rounded m k ≤ rounded n k := by
  refine roundedMantissa_mono (quarters_shiftRight ?_ k)
  unfold quarters
  simpa using h

-- ---------------------------------------------------------------------------
-- Words
-- ---------------------------------------------------------------------------

theorem log2_lt_of_word {n : Nat} (hn : 0 < n) (hWord : n < Word.size) : n.log2 < 64 :=
  (Nat.log2_lt hn.ne').mpr hWord

/-- A word with 53 zeros added is rounded to 53 bits. -/
theorem target_word {n : Nat} (hn : 0 < n) : target (n * 2 ^ 53) (-53) = n.log2 - 52 := by
  unfold target
  rw [log2_mul_two_pow hn]
  omega

theorem rounded_word_bounds {n : Nat} (hn : 0 < n) :
    2 ^ 52 ≤ rounded (n * 2 ^ 53) (n.log2 + 1) ∧ rounded (n * 2 ^ 53) (n.log2 + 1) ≤ 2 ^ 53 := by
  constructor
  · refine le_rounded ?_
    calc 2 ^ 52 * 2 ^ (n.log2 + 1) = 2 ^ n.log2 * 2 ^ 53 := by ring
      _ ≤ n * 2 ^ 53 := Nat.mul_le_mul_right _ (Nat.log2_self_le hn.ne')
  · refine rounded_le ?_
    calc n * 2 ^ 53 ≤ 2 ^ (n.log2 + 1) * 2 ^ 53 := Nat.mul_le_mul_right _ Nat.lt_log2_self.le
      _ = 2 ^ 53 * 2 ^ (n.log2 + 1) := Nat.mul_comm _ _

/-- A stored number that a word becomes when it is rounded. -/
structure Stores (n m : Nat) (e : Int) : Prop extends Canonical m e where
  full : 2 ^ 52 ≤ m
  lower : -52 ≤ e
  upper : e ≤ 12
  magnitude_eq : magnitude m e =
    magnitude (rounded (n * 2 ^ 53) (n.log2 + 1)) (n.log2 - 52)

theorem exists_stores {n : Nat} (hn : 0 < n) (hWord : n < Word.size) :
    ∃ m e, ∃ h : Stores n m e,
      roundWithAccuracy Format.binary64 .positive (n * 2 ^ 53) (-53) .exact =
        .finite .positive m e h.positive := by
  -- a word is rounded at the place of its own 53rd bit
  have hTarget := target_word hn
  have hShift : (target (n * 2 ^ 53) (-53) - -53).toNat = n.log2 + 1 := by omega
  obtain ⟨m, e, h, hRound, hMagnitude⟩ := exists_roundWithAccuracy .positive (e := -53)
    (m := n * 2 ^ 53) (by positivity) (by decide) (by omega)
  rw [hShift, hTarget] at hMagnitude
  obtain ⟨hLower, hUpper⟩ := rounded_word_bounds hn
  have hBelow : Canonical (2 ^ 52) (n.log2 - 52) :=
    ⟨by positivity, by decide, by omega, Or.inl le_rfl⟩
  have hAbove : Canonical (2 ^ 52) (n.log2 - 52 + 1) :=
    ⟨by positivity, by decide, by omega, Or.inl le_rfl⟩
  have hDouble : magnitude (2 ^ 53) (n.log2 - 52) = magnitude (2 ^ 52) (n.log2 - 52 + 1) :=
    (magnitude_add (2 ^ 52) (by omega) 1).symm
  -- rounding is monotone, so it stays between the powers of two around the word
  have hFloor := (hBelow.le_iff h).mp (hMagnitude ▸ magnitude_le_iff.mpr hLower)
  have hCeiling := (h.le_iff hAbove).mp (hDouble ▸ hMagnitude ▸ magnitude_le_iff.mpr hUpper)
  have hLog := log2_lt_of_word hn hWord
  have hLeast : -52 ≤ e := by omega
  exact ⟨m, e, ⟨h, h.normal.resolve_right (by omega), hLeast, by omega, hMagnitude⟩, hRound⟩

/-- The larger word becomes the larger number. -/
theorem Stores.magnitude_mono {k n c m : Nat} {d e : Int} (h : Stores k c d) (h' : Stores n m e)
    (hk : 0 < k) (hLe : k ≤ n) : magnitude c d ≤ magnitude m e := by
  have hn := hk.trans_le hLe
  rw [h.magnitude_eq, h'.magnitude_eq]
  have hLog : k.log2 ≤ n.log2 := (Nat.le_log2 hn.ne').mpr ((Nat.log2_self_le hk.ne').trans hLe)
  rcases hLog.eq_or_lt with hSame | hLess
  · rw [hSame]
    exact magnitude_le_iff.mpr (rounded_mono (Nat.mul_le_mul_right _ hLe) _)
  · obtain ⟨j, hj⟩ : ∃ j : Nat, (n.log2 : Int) - 52 = k.log2 - 52 + (j + 1 : Nat) :=
      ⟨n.log2 - k.log2 - 1, by omega⟩
    obtain ⟨-, hUpper⟩ := rounded_word_bounds hk
    obtain ⟨hLower, -⟩ := rounded_word_bounds hn
    rw [hj, magnitude_add _ (by omega)]
    refine magnitude_le_iff.mpr (hUpper.trans ?_)
    calc 2 ^ 53 = 2 ^ 52 * 2 := rfl
      _ ≤ rounded (n * 2 ^ 53) (n.log2 + 1) * 2 ^ (j + 1) :=
        Nat.mul_le_mul hLower (Nat.le_self_pow (Nat.succ_ne_zero j) 2)

/-- Words of at most 53 bits are stored as they are. -/
theorem round_word {n m : Nat} {e : Int} (hn : 0 < n) (hLt : n < 2 ^ 53) (h : Stores n m e)
    (hRound : roundWithAccuracy Format.binary64 .positive (n * 2 ^ 53) (-53) .exact =
      .finite .positive m e h.positive) :
    UnpackedFloat.round Format.binary64 .positive n 0 = .finite .positive m e h.positive := by
  have hLog : n.log2 ≤ 52 := by
    have := (Nat.log2_lt hn.ne').mpr hLt
    omega
  have hTarget : target n 0 = n.log2 - 52 := by
    unfold target
    omega
  -- shifted up to 53 bits the word is a stored mantissa
  have hExact : Canonical (n * 2 ^ (52 - n.log2)) (n.log2 - 52) := by
    have hFull : (n * 2 ^ (52 - n.log2)).log2 = 52 := by
      rw [log2_mul_two_pow hn]
      omega
    have hPositive : n * 2 ^ (52 - n.log2) ≠ 0 := by positivity
    obtain ⟨hFloor, hCeiling⟩ := (Nat.log2_eq_iff hPositive).mp hFull
    exact ⟨Nat.pos_of_ne_zero hPositive, hCeiling, by omega, Or.inl hFloor⟩
  have hSplit : n * 2 ^ 53 = n * 2 ^ (52 - n.log2) * 2 ^ (n.log2 + 1) := by
    rw [mul_assoc, ← pow_add, ← add_assoc, Nat.sub_add_cancel hLog]
  have hExponent : (-53 : Int) = (n.log2 : Int) - 52 - (n.log2 + 1 : Nat) := by omega
  have hHere : UnpackedFloat.round Format.binary64 .positive n 0 =
      roundWithAccuracy Format.binary64 .positive (n * 2 ^ (52 - n.log2) * 2 ^ 0)
        (n.log2 - 52 - (0 : Nat)) .exact := by
    have hShift : (0 - target n 0).toNat = 52 - n.log2 := by omega
    have hLeft : (0 : Int) - (52 - n.log2 : Nat) = n.log2 - 52 - (0 : Nat) := by omega
    rw [pow_zero, mul_one, ← Nat.shiftLeft_eq, ← hLeft, ← hShift, ← targetExponent_eq]
    rfl
  -- rounding removes the zeros that were shifted in, from one representation or the other
  rw [hHere, roundWithAccuracy_canonical _ hExact 0]
  rw [hSplit, hExponent, roundWithAccuracy_canonical _ hExact (n.log2 + 1)] at hRound
  exact hRound

theorem unpack_mul (a b : Float) : (a * b).toModel.unpack = (Float.Model.pack
    (UnpackedFloat.mul Format.binary64 a.toModel.unpack b.toModel.unpack)).unpack := rfl

theorem unpack_toFloat {x : UInt64} (hx : 0 < x.toNat) : x.toFloat.toModel.unpack =
    (Float.Model.pack (UnpackedFloat.round Format.binary64 .positive x.toNat 0)).unpack := by
  have hNormal : UnpackedFloat.normalize Format.binary64 (x.toNat : Int) 0 .positive =
      UnpackedFloat.round Format.binary64 .positive x.toNat 0 := by
    unfold UnpackedFloat.normalize
    rw [Int.compare_eq_gt.mpr (by omega)]
    rfl
  rw [← hNormal]
  rfl

/-- Multiplying by one changes no stored number. -/
theorem mul_one_eq {m : Nat} {e : Int} (h : Canonical m e) :
    UnpackedFloat.mul Format.binary64 (.finite .positive m e h.positive)
      (.finite .positive (2 ^ 52) (-52) (by decide)) = .finite .positive m e h.positive :=
  roundWithAccuracy_canonical .positive h 52

theorem unpack_powerOfTen : (Float.exactlyRepresentablePowersOfTen[0]).toModel.unpack =
    .finite .positive (2 ^ 52) (-52) (by decide) := rfl

theorem ofScientific_eq {n : Nat} (hn : 0 < n) :
    UnpackedFloat.ofScientific Format.binary64 n (Int.ofNat 0) =
      roundWithAccuracy Format.binary64 .positive (n * 2 ^ 53) (-53) .exact := by
  have hBits : Format.binary64.mantissaBits = 53 := rfl
  have hPower : 10 ^ (Int.ofNat 0).toNat = 1 := rfl
  have hSign : Sign.positive * Sign.positive = Sign.positive := rfl
  unfold UnpackedFloat.ofScientific
  rw [dif_neg hn.ne', if_neg (by decide), if_neg (by simp), if_pos (by decide)]
  unfold UnpackedFloat.mul
  dsimp only
  rw [hPower, hBits, hSign, Nat.mul_one, Nat.shiftLeft_eq]
  rfl

/-- **The number that a word becomes.** -/
theorem exists_natCast {n : Nat} (hn : 0 < n) (hWord : n < Word.size) :
    ∃ m e, ∃ h : Stores n m e,
      ((n : Float)).toModel.unpack = .finite .positive m e h.positive := by
  obtain ⟨m, e, h, hRound⟩ := exists_stores hn hWord
  have hStored := unpack_pack (s := .positive) h.toCanonical
  rw [if_pos (by have := h.upper; omega)] at hStored
  have hSame : n.toUInt64.toNat = n := Nat.mod_eq_of_lt hWord
  refine ⟨m, e, h, ?_⟩
  show (Float.ofScientific n false 0).toModel.unpack = _
  unfold Float.ofScientific
  by_cases hSmall : n < 2 ^ 53
  · rw [dif_pos ⟨hSmall, by decide⟩, if_neg Bool.false_ne_true, unpack_mul,
      unpack_toFloat (by omega), hSame, round_word hn hSmall h hRound, hStored, unpack_powerOfTen,
      mul_one_eq h.toCanonical, hStored]
  · rw [dif_neg fun hBoth => hSmall hBoth.1]
    show (Float.Model.pack (UnpackedFloat.ofScientific Format.binary64 n (Int.ofNat 0))).unpack = _
    rw [ofScientific_eq hn, hRound, hStored]

-- ---------------------------------------------------------------------------
-- Quotients
-- ---------------------------------------------------------------------------

/-- Dividing one full mantissa by another yields 53 further bits. -/
theorem divCore_full {m m' : Nat} {e e' : Int} (hm : m.log2 = 52) (hm' : m'.log2 = 52)
    (hNear : -1021 ≤ e - e') : divCore Format.binary64 m e m' e' =
      (m * 2 ^ 53 / m', e - e' - 53, accuracyOfFraction (m * 2 ^ 53 % m') m') := by
  have hTarget : Format.binary64.targetExponent (totalExponent m e - totalExponent m' e') =
      e - e' - 53 := by
    have hTotal : totalExponent m e - totalExponent m' e' = totalExponent m (e - e' - 53) := by
      unfold totalExponent
      rw [hm, hm']
      ring
    rw [hTotal, targetExponent_eq]
    unfold target
    rw [hm]
    omega
  have hLeast : min (e - e') (e - e' - 53) = e - e' - 53 := by omega
  have hShift : (e - e' - (e - e' - 53)).toNat = 53 := by omega
  unfold divCore
  rw [hTarget]
  dsimp only
  rw [hLeast, hShift, Nat.shiftLeft_eq]

theorem shiftToTarget_accuracy (m : Nat) (e : Int) (a : Accuracy) :
    shiftToTargetExponent Format.binary64 m e a =
      (ExtendedMantissa.ofMantissaAndAccuracy m a >>> (target m e - e).toNat,
        e + (target m e - e).toNat) := by
  rw [← targetExponent_eq]
  rfl

theorem mantissa_ofAccuracy (m : Nat) (a : Accuracy) :
    (ExtendedMantissa.ofMantissaAndAccuracy m a).mantissa = m := by
  cases a with
  | exact => rfl
  | inexact order => cases order <;> rfl

/-- A quotient with what is left over does not pass a bound of the exact quotient. -/
theorem quarters_quotient {x y b : Nat} (hLe : x ≤ y * b) :
    quarters (.ofMantissaAndAccuracy (x / y) (accuracyOfFraction (x % y) y)) ≤
      quarters ⟨b, false, false⟩ := by
  have hQuotient : x / y ≤ b := Nat.div_le_of_le_mul hLe
  -- the rest counts for less than one unit
  have hResidue : ∀ a, quarters (.ofMantissaAndAccuracy (x / y) a) ≤ 4 * (x / y) + 3 := by
    intro a
    cases a with
    | exact => simp [quarters, ExtendedMantissa.ofMantissaAndAccuracy]
    | inexact order =>
      cases order <;> simp [quarters, ExtendedMantissa.ofMantissaAndAccuracy]
  rcases hQuotient.lt_or_eq with hLess | hSame
  · have hPlace := hResidue (accuracyOfFraction (x % y) y)
    show _ ≤ 4 * b + 2 * 0 + 0
    omega
  · -- then there is nothing left over
    have hNone : x % y = 0 := by
      have hSplit := Nat.div_add_mod x y
      rw [hSame] at hSplit
      omega
    rw [hNone, hSame]
    exact le_rfl

/-- A mantissa with at least 53 bits keeps 53 of them, and what is left over matters only to the
last. -/
theorem exists_round_full {q j k : Nat} (a : Accuracy) (hLog : q.log2 = 52 + k) (hj : j ≤ 1074) :
    ∃ m e, ∃ h : Canonical m e,
      roundWithAccuracy Format.binary64 .positive q (-j) a = .finite .positive m e h.positive ∧
      magnitude m e = magnitude
        (ExtendedMantissa.ofMantissaAndAccuracy q a >>> k).roundedMantissa (k - j) := by
  have hNonzero : q ≠ 0 := by
    rintro rfl
    rw [Nat.log2_zero] at hLog
    omega
  have hShifted : shiftToTargetExponent Format.binary64 q (-j) a =
      (ExtendedMantissa.ofMantissaAndAccuracy q a >>> k, (k : Int) - j) := by
    have hShift : (target q (-j) - -j).toNat = k := by
      unfold target
      omega
    rw [shiftToTarget_accuracy, hShift, neg_add_eq_sub]
  have hBounds := roundedMantissa_bounds (ExtendedMantissa.ofMantissaAndAccuracy q a >>> k)
  rw [mantissa_shiftRight, mantissa_ofAccuracy] at hBounds
  -- 52 places are left after the leading bit
  have hKept : 2 ^ 52 ≤ q / 2 ^ k ∧ q / 2 ^ k < 2 ^ 53 := by
    rw [Nat.le_div_iff_mul_le (by positivity), Nat.div_lt_iff_lt_mul (by positivity), ← pow_add,
      ← pow_add, ← hLog]
    exact ⟨Nat.log2_self_le hNonzero, Nat.lt_log2_self.trans_eq (congrArg (2 ^ ·) (by omega))⟩
  have hLower := hKept.1.trans hBounds.1
  have hUpper := hBounds.2.trans (Nat.succ_le_of_lt hKept.2)
  obtain ⟨m, e, h, hCarried, hMagnitude⟩ := exists_carried .positive (x := (k : Int) - j)
    (lt_of_lt_of_le (by positivity) hLower) hUpper (Or.inl hLower) (by omega)
  refine ⟨m, e, h, ?_, hMagnitude⟩
  unfold roundWithAccuracy
  rw [hShifted]
  exact hCarried

/-- What has at least 53 bits and is at most a power of two, with what is left over, is so after it
has been rounded. -/
theorem exists_round_le {q j : Nat} {a : Accuracy} (hFloor : 2 ^ 52 ≤ q) (hj : j ≤ 1074)
    (hPlace : quarters (.ofMantissaAndAccuracy q a) ≤ quarters ⟨2 ^ j, false, false⟩) :
    ∃ m e, ∃ h : Canonical m e,
      roundWithAccuracy Format.binary64 .positive q (-j) a = .finite .positive m e h.positive ∧
      magnitude m e ≤ magnitude (2 ^ 52) (-52) := by
  have hNonzero : q ≠ 0 := (lt_of_lt_of_le (by positivity) hFloor).ne'
  have hCeiling : q ≤ 2 ^ j := by
    unfold quarters at hPlace
    rw [mantissa_ofAccuracy] at hPlace
    simp only [Bool.toNat_false] at hPlace
    omega
  -- the leading bit lies between 52 and the exponent of the bound
  have hBits : 52 ≤ q.log2 := (Nat.le_log2 hNonzero).mpr hFloor
  have hMost : q.log2 ≤ j := (Nat.pow_le_pow_iff_right (by decide)).mp
    ((Nat.log2_self_le hNonzero).trans hCeiling)
  obtain ⟨k, hk⟩ : ∃ k, q.log2 = 52 + k := ⟨q.log2 - 52, by omega⟩
  obtain ⟨m, e, h, hRound, hMagnitude⟩ := exists_round_full a hk hj
  refine ⟨m, e, h, hRound, ?_⟩
  -- the bound has only zeros below the bits that are left
  have hWhole : (ExtendedMantissa.ofMantissaAndAccuracy q a >>> k).roundedMantissa ≤
      2 ^ (j - k) := by
    refine (roundedMantissa_mono (quarters_shiftRight hPlace k)).trans
      (rounded_le (Nat.le_of_eq ?_))
    rw [← pow_add]
    exact congrArg (2 ^ ·) (by omega)
  have hOne : (-52 : Int) = (k : Int) - j + (j - k - 52 : Nat) := by omega
  rw [hMagnitude, hOne, magnitude_add _ (by omega), magnitude_le_iff, ← pow_add]
  exact hWhole.trans_eq (congrArg (2 ^ ·) (by omega))

/-- The quotient of a number by a larger one is at most one. -/
theorem exists_div {m m' : Nat} {e e' : Int} (h : Canonical m e) (h' : Canonical m' e')
    (hFull : 2 ^ 52 ≤ m) (hFull' : 2 ^ 52 ≤ m') (hNear : -1021 ≤ e - e')
    (hLe : magnitude m e ≤ magnitude m' e') :
    ∃ c x, ∃ hc : Canonical c x,
      UnpackedFloat.div Format.binary64 (.finite .positive m e h.positive)
        (.finite .positive m' e' h'.positive) = .finite .positive c x hc.positive ∧
      magnitude c x ≤ magnitude (2 ^ 52) (-52) := by
  have hLog : ∀ {n d}, Canonical n d → 2 ^ 52 ≤ n → n.log2 = 52 := fun hn hFloor =>
    (Nat.log2_eq_iff hn.positive.ne').mpr ⟨hFloor, hn.lt⟩
  obtain ⟨d, rfl⟩ : ∃ d : Nat, e' = e + d := by
    rcases (h.le_iff h').mp hLe with hLess | ⟨hSame, -⟩
    · exact ⟨(e' - e).toNat, by omega⟩
    · exact ⟨0, by omega⟩
  -- the exact quotient is at most a power of two
  have hExact : m * 2 ^ 53 ≤ m' * 2 ^ (d + 53) := by
    rw [magnitude_add m' h.least, magnitude_le_iff] at hLe
    rw [pow_add, ← mul_assoc]
    exact Nat.mul_le_mul_right _ hLe
  -- and it has 53 bits at least before it is rounded
  have hFloor : 2 ^ 52 ≤ m * 2 ^ 53 / m' := by
    rw [Nat.le_div_iff_mul_le h'.positive]
    calc 2 ^ 52 * m' ≤ 2 ^ 52 * 2 ^ 53 := Nat.mul_le_mul_left _ h'.lt.le
      _ ≤ m * 2 ^ 53 := Nat.mul_le_mul_right _ hFull
  obtain ⟨c, x, hc, hRound, hBound⟩ :=
    exists_round_le hFloor (by omega) (quarters_quotient hExact)
  refine ⟨c, x, hc, ?_, hBound⟩
  have hExponent : e - (e + d) - 53 = -((d + 53 : Nat) : Int) := by omega
  unfold UnpackedFloat.div
  dsimp only
  rw [divCore_full (hLog h hFull) (hLog h' hFull') hNear, hExponent]
  exact hRound

/-- **A part of a whole** is a number from zero to one. -/
theorem part_bounds {k n : Nat} (hk : k ≤ n) (hn : n ≠ 0) (hWord : n < Word.size) :
    (0 : Float) ≤ (k : Float) / (n : Float) ∧ (k : Float) / (n : Float) ≤ 1 := by
  obtain ⟨m', e', h', hWhole⟩ := exists_natCast (Nat.pos_of_ne_zero hn) hWord
  have hQuotient : ((k : Float) / (n : Float)).toModel.unpack =
    (Float.Model.pack (UnpackedFloat.div Format.binary64 (k : Float).toModel.unpack
      (n : Float).toModel.unpack)).unpack := rfl
  have hZero : rankOf 0 = some (0, 0, 0) := rfl
  have hOne : rankOf 1 = some (1, -52, ((2 ^ 52 : Nat) : Int)) := by decide +kernel
  -- nothing of the whole is zero; anything else is a quotient of stored numbers
  rcases Nat.eq_zero_or_pos k with rfl | hPositive
  · have hNone : ((0 : Nat) : Float).toModel.unpack = .zero .positive := rfl
    have hRank : rankOf (((0 : Nat) : Float) / (n : Float)) = some (0, 0, 0) := by
      unfold rankOf
      rw [hQuotient, hWhole, hNone]
      unfold UnpackedFloat.div
      dsimp only
      rw [unpack_pack_zero]
      rfl
    exact ⟨le_iff.mpr ⟨_, _, hZero, hRank, rfl⟩, le_iff.mpr ⟨_, _, hRank, hOne, rfl⟩⟩
  · obtain ⟨m, e, h, hPart⟩ := exists_natCast hPositive (hk.trans_lt hWord)
    obtain ⟨c, x, hc, hDiv, hLe⟩ := exists_div h.toCanonical h'.toCanonical h.full h'.full
      (by have := h.lower; have := h'.upper; omega) (h.magnitude_mono h' hPositive hk)
    have hUnit : Canonical (2 ^ 52) (-52) := ⟨by decide, by decide, by decide, Or.inl le_rfl⟩
    have hOrder := (hc.le_iff hUnit).mp hLe
    have hRank : rankOf ((k : Float) / (n : Float)) = some (1, x, (c : Int)) := by
      unfold rankOf
      rw [hQuotient, hPart, hWhole, hDiv, unpack_pack hc, if_pos (by omega)]
      rfl
    refine ⟨le_iff.mpr ⟨_, _, hZero, hRank, rfl⟩, le_iff.mpr ⟨_, _, hRank, hOne, ?_⟩⟩
    exact byRank_positive_isLE.mpr hOrder

end Binary64

instance instPartFloat : PartScalar Float := ⟨Binary64.part_bounds⟩

end SwapSearch
