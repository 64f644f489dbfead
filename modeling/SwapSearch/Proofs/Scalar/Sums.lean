import SwapSearch.Proofs.Scalar.Parts

/-!
# SwapSearch — sums that are not rounded

In units of the least positive number every finite binary64 number is an integer. The sum of
two numbers is the sum of these integers, rounded to one that some number stands for. So a sum
that a number stands for already is exact, whatever the exponents of the summands are.

Integers of at most 53 bits are among them. A number *denotes* an integer if that is its value.
Converting such an integer, negating and adding are exact as long as the results stay within
`2 ^ 53`, and the two zeros, which both denote zero, are the only choice that is left.

A difference of finite numbers may leave the range of finite numbers, but it is a number.

## Results

* `units_round`         — what some number stands for is rounded to itself.
* `units_add`           — sums.
* `denotes_intCast`, `Denotes.add`, `Denotes.neg` — arithmetic on integers.
* `Denotes.beq`         — numbers that denote the same integer are equal.
* `isNaN_sub`           — a difference of finite numbers is a number.
-/

namespace SwapSearch.Binary64

open Float.Model Float.Model.UnpackedFloat

-- ---------------------------------------------------------------------------
-- Values
-- ---------------------------------------------------------------------------

/-- The value of a finite number, in units of the least positive number. -/
def units : UnpackedFloat → Option Int
  | .zero _ => some 0
  | .finite s m e _ => some (s.apply (magnitude m e))
  | .infinity _ => none
  | .notANumber => none

/-- Some number has this value. -/
def Stored (t : Int) : Prop :=
  t = 0 ∨ ∃ m e, Canonical m e ∧ e ≤ 971 ∧ magnitude m e = t.natAbs

theorem natAbs_apply (s : Sign) (n : Nat) : (s.apply (n : Int)).natAbs = n := by
  cases s with
  | positive => exact Int.natAbs_natCast n
  | negative => exact (Int.natAbs_neg _).trans (Int.natAbs_natCast n)

theorem magnitude_pos {m : Nat} {e : Int} (hm : 0 < m) : 0 < magnitude m e :=
  Nat.mul_pos hm (by positivity)

/-- A number that has been stored is stored as it is. -/
theorem units_pack_finite {s : Sign} {m : Nat} {e : Int} (h : Canonical m e) (hFits : e ≤ 971) :
    units (Float.Model.pack (.finite s m e h.positive)).unpack =
      some (s.apply (magnitude m e)) := by
  rw [unpack_pack h, if_pos hFits]
  rfl

theorem units_pack_zero (s : Sign) : units (Float.Model.pack (.zero s)).unpack = some 0 := by
  rw [unpack_pack_zero]
  rfl

-- ---------------------------------------------------------------------------
-- Rounding
-- ---------------------------------------------------------------------------

/-- **What some number stands for is rounded to itself.** -/
theorem units_round (s : Sign) {m : Nat} {e : Int} (hm : 0 < m) (hLeast : -1074 ≤ e)
    (h : Stored (magnitude m e)) :
    units (Float.Model.pack (UnpackedFloat.round Format.binary64 s m e)).unpack =
      some (s.apply (magnitude m e)) := by
  have hPositive : 0 < magnitude m e := magnitude_pos hm
  obtain ⟨c, x, hc, hFits, hSame⟩ := h.resolve_left (by omega)
  rw [Int.natAbs_natCast] at hSame
  obtain ⟨m', e', h', hRound, hFaithful⟩ := exists_round s hm hLeast
  obtain ⟨hBelow, hAbove⟩ := hFaithful c x hc
  have hLower := hBelow hSame.le
  have hUpper := hAbove hSame.ge
  -- no stored number lies between, so the result has the same magnitude and no larger exponent
  have hFits' : e' ≤ 971 := by
    rcases (h'.le_iff hc).mp hUpper with hLess | ⟨rfl, -⟩ <;> omega
  rw [hRound, units_pack_finite h' hFits', ← hSame, le_antisymm hUpper hLower]

/-- The sum of two mantissas is normalized without rounding if some number stands for it. -/
theorem units_normalize {t sum u : Int} (hLeast : -1074 ≤ u)
    (hSum : sum * 2 ^ (u + 1074).toNat = t) (h : Stored t) :
    units (Float.Model.pack
      (UnpackedFloat.normalize Format.binary64 sum u .positive)).unpack = some t := by
  unfold UnpackedFloat.normalize
  -- by the sign of the sum, since the magnitude is rounded
  rcases lt_trichotomy sum 0 with hLt | rfl | hGt
  · obtain ⟨n, rfl⟩ : ∃ n : Nat, sum = -(n : Int) := ⟨(-sum).toNat, by omega⟩
    have hValue : t = -(magnitude n u : Int) := by
      rw [← hSum, magnitude]
      push_cast
      ring
    have hStored : Stored (magnitude n u) := by
      rcases h with hZero | ⟨m, e, hm, hFits, hSame⟩
      · exact Or.inl (by omega)
      · exact Or.inr ⟨m, e, hm, hFits, by rw [hSame, hValue, Int.natAbs_neg]⟩
    rw [Int.compare_eq_lt.mpr hLt, hValue]
    dsimp only
    rw [neg_neg, Int.toNat_natCast]
    exact units_round .negative (by omega) hLeast hStored
  · rw [Int.compare_eq_eq.mpr rfl, ← hSum, zero_mul]
    exact units_pack_zero .positive
  · obtain ⟨n, rfl⟩ : ∃ n : Nat, sum = (n : Int) := ⟨sum.toNat, by omega⟩
    have hValue : t = (magnitude n u : Int) := by
      rw [← hSum, magnitude]
      push_cast
      ring
    rw [Int.compare_eq_gt.mpr hGt]
    dsimp only
    rw [Int.toNat_natCast, hValue]
    exact units_round .positive (by omega) hLeast (hValue ▸ h)

theorem apply_mul (s : Sign) (x y : Int) : s.apply x * y = s.apply (x * y) := by
  cases s with
  | positive => rfl
  | negative => exact neg_mul x y

/-- A mantissa counted in a smaller unit. -/
theorem apply_shifted (s : Sign) (m : Nat) {e d : Int} (he : -1074 ≤ e) (hd : -1074 ≤ d) :
    s.apply ((m <<< (e - min e d).toNat : Nat) : Int) * 2 ^ (min e d + 1074).toNat =
      s.apply (magnitude m e) := by
  rw [apply_mul, ← magnitude_min m he hd, magnitude]
  push_cast
  rfl

section Sums

variable {a b : Float} {x y : Int}

theorem unpack_add (a b : Float) : (a + b).toModel.unpack = (Float.Model.pack
    (UnpackedFloat.add Format.binary64 a.toModel.unpack b.toModel.unpack)).unpack := rfl

theorem unpack_neg (a : Float) :
    (-a).toModel.unpack = (Float.Model.pack (UnpackedFloat.neg a.toModel.unpack)).unpack := rfl

/-- A number with a value is a zero or a stored number with that value. -/
theorem cases_of_units {v : Float.Model} {t : Int} (h : units v.unpack = some t) :
    (∃ s, v.unpack = .zero s ∧ t = 0) ∨ ∃ s m e, ∃ hc : Canonical m e,
      v.unpack = .finite s m e hc.positive ∧ e ≤ 971 ∧ t = s.apply (magnitude m e) := by
  cases hv : v.unpack with
  | notANumber =>
    rw [hv] at h
    exact nomatch h
  | infinity s =>
    rw [hv] at h
    exact nomatch h
  | zero s =>
    rw [hv] at h
    exact Or.inl ⟨s, rfl, (Option.some.inj h).symm⟩
  | finite s m e hm =>
    rw [hv] at h
    obtain ⟨hc, hFits⟩ := canonical_of_unpack hv
    exact Or.inr ⟨s, m, e, hc, rfl, hFits, (Option.some.inj h).symm⟩

/-- **A sum that some number stands for is exact.** -/
theorem units_add (ha : units a.toModel.unpack = some x) (hb : units b.toModel.unpack = some y)
    (h : Stored (x + y)) : units (a + b).toModel.unpack = some (x + y) := by
  rw [unpack_add]
  rcases cases_of_units ha with ⟨s, hLeft, rfl⟩ | ⟨s, m, e, hc, hLeft, hFits, rfl⟩
  · rcases cases_of_units hb with ⟨s', hRight, rfl⟩ | ⟨s', m', e', hc', hRight, hFits', rfl⟩
    · rw [hLeft, hRight]
      cases s <;> cases s' <;> rfl
    · rw [hLeft, hRight, zero_add]
      exact units_pack_finite hc' hFits'
  · rcases cases_of_units hb with ⟨s', hRight, rfl⟩ | ⟨s', m', e', hc', hRight, hFits', rfl⟩
    · rw [hLeft, hRight, add_zero]
      exact units_pack_finite hc hFits
    · rw [hLeft, hRight]
      refine units_normalize (le_min hc.least hc'.least) ?_ h
      show (s.apply ((m <<< (e - min e e').toNat : Nat) : Int) +
        s'.apply ((m' <<< (e' - min e e').toNat : Nat) : Int)) * _ = _
      rw [add_mul, apply_shifted s m hc.least hc'.least, min_comm,
        apply_shifted s' m' hc'.least hc.least]

theorem units_neg (ha : units a.toModel.unpack = some x) :
    units (-a).toModel.unpack = some (-x) := by
  rw [unpack_neg]
  rcases cases_of_units ha with ⟨s, hUnpack, rfl⟩ | ⟨s, m, e, hc, hUnpack, hFits, rfl⟩
  · rw [hUnpack]
    exact units_pack_zero (-s)
  · have hSign : (-s).apply (magnitude m e : Int) = -s.apply (magnitude m e) := by
      cases s with
      | positive => rfl
      | negative => exact (neg_neg _).symm
    rw [hUnpack, ← hSign]
    exact units_pack_finite hc hFits

/-- A value other than zero has one sign and one magnitude. -/
theorem apply_inj {s s' : Sign} {n n' : Nat} (hn : 0 < n)
    (h : s.apply (n : Int) = s'.apply (n' : Int)) : s = s' ∧ n = n' := by
  cases s with
  | positive =>
    cases s' with
    | positive => exact ⟨rfl, Int.ofNat.inj h⟩
    | negative =>
      have hOpposite : (n : Int) = -n' := h
      omega
  | negative =>
    cases s' with
    | positive =>
      have hOpposite : -(n : Int) = n' := h
      omega
    | negative => exact ⟨rfl, Int.ofNat.inj (Int.neg_inj.mp h)⟩

theorem apply_magnitude_ne_zero (s : Sign) {m : Nat} {e : Int} (hm : 0 < m) :
    s.apply (magnitude m e) ≠ 0 := by
  have hPositive : 0 < magnitude m e := magnitude_pos hm
  rw [← Int.natAbs_ne_zero, natAbs_apply]
  omega

/-- The value determines the rank. -/
theorem rank_eq_of_units (ha : units a.toModel.unpack = some x)
    (hb : units b.toModel.unpack = some x) : ∃ r, rankOf a = some r ∧ rankOf b = some r := by
  unfold rankOf
  rcases cases_of_units ha with ⟨s, hLeft, rfl⟩ | ⟨s, m, e, hc, hLeft, -, rfl⟩
  · rcases cases_of_units hb with ⟨s', hRight, -⟩ | ⟨s', m', e', hc', -, -, hValue⟩
    · exact ⟨(0, 0, 0), by rw [hLeft]; rfl, by rw [hRight]; rfl⟩
    · exact absurd hValue.symm (apply_magnitude_ne_zero s' hc'.positive)
  · rcases cases_of_units hb with ⟨s', -, hValue⟩ | ⟨s', m', e', hc', hRight, -, hValue⟩
    · exact absurd hValue (apply_magnitude_ne_zero s hc.positive)
    · obtain ⟨rfl, hMagnitude⟩ := apply_inj (magnitude_pos hc.positive) hValue
      obtain ⟨rfl, rfl⟩ : e = e' ∧ m = m' := by
        have hBelow := (hc.le_iff hc').mp hMagnitude.le
        have hAbove := (hc'.le_iff hc).mp hMagnitude.ge
        omega
      rw [hLeft, hRight]
      cases s <;> exact ⟨_, rfl, rfl⟩

end Sums

-- ---------------------------------------------------------------------------
-- Integers
-- ---------------------------------------------------------------------------

/-- The number one, in units of the least positive number. -/
def one : Nat := magnitude 1 0

/-- The value of the number is the integer. -/
def Denotes (a : Float) (z : Int) : Prop := units a.toModel.unpack = some (z * one)

/-- An integer of at most 53 bits is a mantissa of exactly 53 bits and an exponent. -/
theorem exists_canonical {n : Nat} (hn : 0 < n) (hLe : n ≤ 2 ^ 53) :
    ∃ m, Canonical m (n.log2 - 52) ∧ m * 2 ^ (n.log2 + 1) = n * 2 ^ 53 ∧ n.log2 ≤ 53 := by
  rcases hLe.eq_or_lt with rfl | hLt
  · rw [Nat.log2_two_pow]
    exact ⟨2 ^ 52, ⟨by positivity, by decide, by decide, Or.inl le_rfl⟩, by ring, le_rfl⟩
  · have hLog : n.log2 ≤ 52 := by
      have := (Nat.log2_lt hn.ne').mpr hLt
      omega
    have hPositive : n * 2 ^ (52 - n.log2) ≠ 0 := by positivity
    have hFull : (n * 2 ^ (52 - n.log2)).log2 = 52 := by
      rw [log2_mul_two_pow hn]
      omega
    obtain ⟨hFloor, hCeiling⟩ := (Nat.log2_eq_iff hPositive).mp hFull
    refine ⟨n * 2 ^ (52 - n.log2),
      ⟨Nat.pos_of_ne_zero hPositive, hCeiling, by omega, Or.inl hFloor⟩, ?_, by omega⟩
    rw [mul_assoc, ← pow_add]
    congr 2
    omega

/-- That mantissa and exponent have the value of the integer. -/
theorem magnitude_canonical {n m : Nat} (h : m * 2 ^ (n.log2 + 1) = n * 2 ^ 53) :
    magnitude m (n.log2 - 52) = n * one := by
  have hShift : ((n.log2 : Int) - 52 + 1074).toNat = n.log2 + 1 + 1021 := by omega
  have hOne : one = 2 ^ 53 * 2 ^ 1021 := by
    unfold one magnitude
    rw [one_mul, ← pow_add]
    exact congrArg (2 ^ ·) (by decide)
  rw [magnitude, hShift, pow_add, ← mul_assoc, h, hOne, mul_assoc]

theorem stored_mul_one {z : Int} (h : z.natAbs ≤ 2 ^ 53) : Stored (z * one) := by
  rcases eq_or_ne z 0 with rfl | hNe
  · exact Or.inl (zero_mul _)
  · obtain ⟨m, hc, hShifted, hLog⟩ := exists_canonical (Int.natAbs_pos.mpr hNe) h
    refine Or.inr ⟨m, _, hc, by omega, ?_⟩
    rw [magnitude_canonical hShifted, Int.natAbs_mul, Int.natAbs_natCast]

section Integers

variable {a b : Float} {x y : Int}

/-- **Sums of integers are exact** as long as they are in range. -/
theorem Denotes.add (ha : Denotes a x) (hb : Denotes b y) (h : (x + y).natAbs ≤ 2 ^ 53) :
    Denotes (a + b) (x + y) := by
  have hStored := stored_mul_one h
  unfold Denotes
  rw [add_mul] at hStored ⊢
  exact units_add ha hb hStored

theorem Denotes.neg (ha : Denotes a x) : Denotes (-a) (-x) := by
  unfold Denotes
  rw [neg_mul]
  exact units_neg ha

/-- Numbers that denote the same integer are equal, though the two zeros are not the same. -/
theorem Denotes.beq (ha : Denotes a x) (hb : Denotes b x) : (a == b) = true := by
  obtain ⟨r, hLeft, hRight⟩ := rank_eq_of_units ha hb
  exact beq_iff.mpr ⟨r, r, hLeft, hRight, Std.ReflCmp.compare_self⟩

theorem denotes_natCast {n : Nat} (h : n ≤ 2 ^ 53) : Denotes (n : Float) n := by
  unfold Denotes
  rcases Nat.eq_zero_or_pos n with rfl | hn
  · have hZero : ((0 : Nat) : Float).toModel.unpack = .zero .positive := rfl
    rw [hZero, Nat.cast_zero, zero_mul]
    rfl
  · have hWord : n < Word.size := h.trans_lt (by decide)
    obtain ⟨m, e, hStores, hUnpack⟩ := exists_natCast hn hWord
    obtain ⟨c, -, hShifted, -⟩ := exists_canonical hn h
    have hMagnitude : magnitude m e = n * one := by
      rw [hStores.magnitude_eq, ← hShifted, rounded_exact, magnitude_canonical hShifted]
    rw [hUnpack]
    show some ((magnitude m e : Nat) : Int) = _
    rw [hMagnitude]
    push_cast
    rfl

/-- **Converting an integer is exact** as long as it is in range. -/
theorem denotes_intCast {z : Int} (h : z.natAbs ≤ 2 ^ 53) : Denotes (z : Float) z := by
  cases z with
  | ofNat n => exact denotes_natCast h
  | negSucc n => exact (denotes_natCast (n := n + 1) h).neg

end Integers

-- ---------------------------------------------------------------------------
-- Differences
-- ---------------------------------------------------------------------------

/-- Storing a mantissa leads to a number, perhaps an infinite one. -/
theorem exists_rank_pack_finite (s : Sign) {m : Nat} {e : Int} (h : Canonical m e) :
    ∃ x, rank (Float.Model.pack (.finite s m e h.positive)).unpack = some x := by
  rw [unpack_pack h]
  split <;> cases s <;> exact ⟨_, rfl⟩

/-- Whatever is normalized becomes a number. -/
theorem exists_rank_pack_normalize (sum : Int) {u : Int} (hLeast : -1074 ≤ u) :
    ∃ x, rank (Float.Model.pack
      (UnpackedFloat.normalize Format.binary64 sum u .positive)).unpack = some x := by
  unfold UnpackedFloat.normalize
  rcases lt_trichotomy sum 0 with hLt | rfl | hGt
  · obtain ⟨m, e, h, hRound, -⟩ :=
      exists_round .negative (show 0 < (-sum).toNat by omega) hLeast
    rw [Int.compare_eq_lt.mpr hLt]
    dsimp only
    rw [hRound]
    exact exists_rank_pack_finite .negative h
  · rw [Int.compare_eq_eq.mpr rfl]
    dsimp only
    rw [unpack_pack_zero]
    exact ⟨(0, 0, 0), rfl⟩
  · obtain ⟨m, e, h, hRound, -⟩ :=
      exists_round .positive (show 0 < sum.toNat by omega) hLeast
    rw [Int.compare_eq_gt.mpr hGt]
    dsimp only
    rw [hRound]
    exact exists_rank_pack_finite .positive h

theorem exists_units {a : Float} (h : Scalar.isFinite a = true) :
    ∃ x, units a.toModel.unpack = some x := by
  have hFinite : a.toModel.unpack.isFinite = true := h
  cases ha : a.toModel.unpack with
  | notANumber =>
    rw [ha] at hFinite
    exact nomatch hFinite
  | infinity s =>
    rw [ha] at hFinite
    exact nomatch hFinite
  | zero s => exact ⟨_, rfl⟩
  | finite s m e hm => exact ⟨_, rfl⟩

/-- **A difference of finite numbers is a number.** -/
theorem isNaN_sub {a b : Float} (ha : Scalar.isFinite a = true) (hb : Scalar.isFinite b = true) :
    Scalar.isNaN (a - b) = false := by
  obtain ⟨x, ha⟩ := exists_units ha
  obtain ⟨y, hb⟩ := exists_units hb
  have hSub : (a - b).toModel.unpack = (Float.Model.pack
    (UnpackedFloat.sub Format.binary64 a.toModel.unpack b.toModel.unpack)).unpack := rfl
  -- zero or not on either side; only infinities could cancel to no number
  have hRank : ∃ r, rankOf (a - b) = some r := by
    unfold rankOf
    rw [hSub]
    rcases cases_of_units ha with ⟨s, hLeft, -⟩ | ⟨s, m, e, hc, hLeft, -, -⟩
    · rcases cases_of_units hb with ⟨s', hRight, -⟩ | ⟨s', m', e', hc', hRight, -, -⟩
      · rw [hLeft, hRight]
        cases s <;> cases s' <;> exact ⟨(0, 0, 0), rfl⟩
      · rw [hLeft, hRight]
        exact exists_rank_pack_finite (-s') hc'
    · rcases cases_of_units hb with ⟨s', hRight, -⟩ | ⟨s', m', e', hc', hRight, -, -⟩
      · rw [hLeft, hRight]
        exact exists_rank_pack_finite s hc
      · rw [hLeft, hRight]
        exact exists_rank_pack_normalize _ (le_min hc.least hc'.least)
  obtain ⟨r, hr⟩ := hRank
  exact isNaN_of_rankOf hr

end SwapSearch.Binary64
