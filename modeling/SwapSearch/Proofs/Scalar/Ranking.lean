import SwapSearch.Proofs.Scalar.Rounding

/-!
# SwapSearch — ranking binary floating point numbers

The total order ranks a number by its bit pattern, the usual order by sign, exponent and
mantissa. The bits below the sign bit spell exponent and mantissa one after the other, so
read as an integer with the sign of the number they are its *place* among all numbers, and
both orders are read off that place. They differ only where the places agree and the bits
do not: on the two zeros, which the total order tells apart.

* `instRankedFloat` — binary64 numbers are ranked as they are ordered.

## Results

* `bits_eq`      — the bits of a number are its sign and its place.
* `rank_ofFloat` — the total order ranks by place, a negative zero below a positive one.
* `le_of_place`  — the usual order orders by place.
-/

namespace SwapSearch

namespace Binary64

open Float.Model Float.Model.UnpackedFloat

-- ---------------------------------------------------------------------------
-- Places
-- ---------------------------------------------------------------------------

/-- How many numbers lie between zero and the absolute value of this one. -/
def distance : UnpackedFloat → Nat
  | .notANumber => 0
  | .infinity _ => 2047 * 2 ^ 52
  | .zero _ => 0
  | .finite _ m e _ => (e + 1074).toNat * 2 ^ 52 + m

/-- The sign bit is set. -/
def negative : UnpackedFloat → Bool
  | .notANumber => false
  | .infinity s | .zero s | .finite s _ _ _ => s == .negative

/-- The numbers are numbered in order, from zero in both directions. -/
def place (x : UnpackedFloat) : Int := if negative x then -(distance x : Int) else distance x

/-- The three fields make up all bits. -/
theorem toNat_eq_fields (b : BitVec Format.binary64.numBits) :
    b.toNat = (unpackSign b).toNat * 2 ^ 63 + (unpackExponent b).toNat * 2 ^ 52 +
      (unpackMantissa b).toNat := by
  have hBits : b.toNat < 2 ^ 64 := b.isLt
  have hSign : (unpackSign b).toNat = b.toNat >>> 63 % 2 ^ 1 := by
    unfold unpackSign
    rw [BitVec.toNat_cast]
    exact BitVec.extractLsb_toNat 63 63 b
  have hExponent : (unpackExponent b).toNat = b.toNat >>> 52 % 2 ^ 11 := by
    unfold unpackExponent
    rw [BitVec.toNat_cast]
    exact BitVec.extractLsb_toNat 62 52 b
  have hMantissa : (unpackMantissa b).toNat = b.toNat >>> 0 % 2 ^ 52 := by
    unfold unpackMantissa
    rw [BitVec.toNat_cast]
    exact BitVec.extractLsb_toNat 51 0 b
  rw [hSign, hExponent, hMantissa]
  simp only [Nat.shiftRight_eq_div_pow]
  omega

theorem toNat_sign (b : BitVec 1) :
    b.toNat = if (Sign.ofBitVec b == .negative) = true then 1 else 0 := by
  revert b
  decide

theorem unpack_top (b : BitVec Format.binary64.numBits) (hTop : unpackExponent b = -1#11) :
    UnpackedFloat.unpack Format.binary64 b =
      if unpackMantissa b = 0#52 then .infinity (Sign.ofBitVec (unpackSign b))
      else .notANumber := by
  unfold UnpackedFloat.unpack
  dsimp only
  rw [if_pos hTop]

theorem unpack_zero (b : BitVec Format.binary64.numBits) (hBottom : unpackExponent b = 0#11)
    (hZero : unpackMantissa b = 0#52) :
    UnpackedFloat.unpack Format.binary64 b = .zero (Sign.ofBitVec (unpackSign b)) := by
  have hTop : unpackExponent b ≠ -1#11 := by
    rw [hBottom]
    decide
  unfold UnpackedFloat.unpack
  dsimp only
  rw [if_neg hTop, if_pos hBottom, dif_pos hZero]

/-- The bits of a number are its sign and its distance from zero. -/
theorem bits_eq (b : BitVec Format.binary64.numBits)
    (hNumber : UnpackedFloat.unpack Format.binary64 b ≠ .notANumber) :
    b.toNat = (if negative (UnpackedFloat.unpack Format.binary64 b) then 2 ^ 63 else 0) +
      distance (UnpackedFloat.unpack Format.binary64 b) := by
  have hFields := toNat_eq_fields b
  rw [toNat_sign, ite_mul, one_mul, zero_mul] at hFields
  -- the exponent is all ones, zero, or in between: infinite, subnormal or normal
  by_cases hTop : unpackExponent b = -1#11
  · rw [unpack_top b hTop] at hNumber ⊢
    have hZero : unpackMantissa b = 0#52 := by
      by_contra hNot
      exact hNumber (if_neg hNot)
    have hExponent : (unpackExponent b).toNat = 2047 := congrArg BitVec.toNat hTop
    have hMantissa : (unpackMantissa b).toNat = 0 := congrArg BitVec.toNat hZero
    rw [if_pos hZero, hFields, hExponent, hMantissa, add_zero, negative, distance]
  by_cases hBottom : unpackExponent b = 0#11
  · have hExponent : (unpackExponent b).toNat = 0 := congrArg BitVec.toNat hBottom
    by_cases hZero : unpackMantissa b = 0#52
    · have hMantissa : (unpackMantissa b).toNat = 0 := congrArg BitVec.toNat hZero
      rw [unpack_zero b hBottom hZero, hFields, hExponent, hMantissa, zero_mul, add_zero, negative,
        distance]
    · have hLowest : ((-1074 : Int) + 1074).toNat = 0 := by decide
      rw [unpack_subnormal b hBottom hZero, hFields, hExponent, add_assoc, negative, distance,
        hLowest]
  · have hPositive : (unpackExponent b).toNat ≠ 0 := fun hEq =>
      hBottom (BitVec.eq_of_toNat_eq hEq)
    have hDistance : (unpackExponent b).toNat * 2 ^ 52 + (unpackMantissa b).toNat =
        ((unpackExponent b).toNat - 1075 + 1074 : Int).toNat * 2 ^ 52 +
          (2 ^ 52 + (unpackMantissa b).toNat) := by omega
    rw [unpack_normal b hTop hBottom, hFields, add_assoc, hDistance, negative, distance]

-- ---------------------------------------------------------------------------
-- Orders
-- ---------------------------------------------------------------------------

/-- The distance of a number leaves room for the sign. -/
theorem distance_lt (a : Float) : distance a.toModel.unpack < 2 ^ 63 := by
  cases ha : a.toModel.unpack with
  | notANumber => exact Nat.two_pow_pos 63
  | infinity s => exact (by decide : 2047 * 2 ^ 52 < 2 ^ 63)
  | zero s => exact Nat.two_pow_pos 63
  | finite s m e hm =>
    obtain ⟨h, hFits⟩ := canonical_of_unpack ha
    have hMantissa := h.lt
    show (e + 1074).toNat * 2 ^ 52 + m < 2 ^ 63
    omega

/-- The total order ranks by place, from the middle of the words upwards and downwards. -/
theorem rank_ofFloat {a : Float} (hNumber : a.toModel.unpack ≠ .notANumber) :
    (BitPattern.ofFloat a).rank.toNat =
      if negative a.toModel.unpack then 2 ^ 63 - 1 - distance a.toModel.unpack
      else 2 ^ 63 + distance a.toModel.unpack := by
  have hDistance := distance_lt a
  have hBits : a.toBits.toNat = (if negative a.toModel.unpack then 2 ^ 63 else 0) +
      distance a.toModel.unpack := bits_eq a.toModel.toBits.toBitVec hNumber
  have hSign : (BitPattern.ofFloat a).isNegative = decide (2 ^ 63 ≤ a.toBits.toNat) :=
    decide_eq_decide.mpr UInt64.le_iff_toNat_le
  unfold BitPattern.rank
  rw [hSign]
  cases hNegative : negative a.toModel.unpack with
  | true =>
    rw [hNegative, if_pos rfl] at hBits
    rw [if_pos (decide_eq_true (by omega)), if_pos rfl, UInt64.toNat_not]
    show 2 ^ 64 - 1 - a.toBits.toNat = _
    omega
  | false =>
    rw [hNegative, if_neg Bool.false_ne_true, zero_add] at hBits
    rw [if_neg (by simpa using by omega), if_neg Bool.false_ne_true, UInt64.toNat_or]
    show a.toBits.toNat ||| 2 ^ 63 = _
    rw [hBits, Nat.or_comm]
    simpa using (Nat.two_pow_add_eq_or_of_lt hDistance 1).symm

/-- What ranks lower has no higher place. -/
theorem place_le_of_rank {a b : Float} {x y : Int × Int × Int} (hx : rankOf a = some x)
    (hy : rankOf b = some y)
    (h : (BitPattern.ofFloat a).rank.toNat ≤ (BitPattern.ofFloat b).rank.toNat) :
    place a.toModel.unpack ≤ place b.toModel.unpack := by
  have hNumber : ∀ {c : Float} {z}, rankOf c = some z → c.toModel.unpack ≠ .notANumber := by
    intro c z hz hNaN
    unfold rankOf at hz
    rw [hNaN] at hz
    exact nomatch hz
  rw [rank_ofFloat (hNumber hx), rank_ofFloat (hNumber hy)] at h
  have ha := distance_lt a
  have hb := distance_lt b
  unfold place
  split_ifs at h ⊢ <;> omega

/-- Ranks and places of numbers. -/
inductive Placed : Int × Int × Int → Int → Prop
  | top : Placed (2, 0, 0) (2047 * 2 ^ 52)
  | bottom : Placed (-2, 0, 0) (-(2047 * 2 ^ 52))
  | zero : Placed (0, 0, 0) 0
  | above {m : Nat} {e : Int} (h : Canonical m e) (fits : e ≤ 971) :
      Placed (1, e, m) ((e + 1074) * 2 ^ 52 + m)
  | below {m : Nat} {e : Int} (h : Canonical m e) (fits : e ≤ 971) :
      Placed (-1, -e, -m) (-((e + 1074) * 2 ^ 52 + m))

theorem placed_of_rankOf {a : Float} {x : Int × Int × Int} (h : rankOf a = some x) :
    Placed x (place a.toModel.unpack) := by
  unfold rankOf at h
  -- a place is the distance from zero with its sign, a rank the fields behind it
  cases ha : a.toModel.unpack with
  | notANumber =>
    rw [ha] at h
    exact nomatch h
  | infinity s =>
    rw [ha] at h
    cases s with
    | positive => exact Option.some.inj h ▸ .top
    | negative => exact Option.some.inj h ▸ .bottom
  | zero s =>
    rw [ha] at h
    cases s with
    | positive => exact Option.some.inj h ▸ .zero
    | negative => exact Option.some.inj h ▸ .zero
  | finite s m e hm =>
    rw [ha] at h
    obtain ⟨hCanonical, hFits⟩ := canonical_of_unpack ha
    have hLeast := hCanonical.least
    have hDistance : ((distance (.finite s m e hm) : Nat) : Int) = (e + 1074) * 2 ^ 52 + m := by
      show (((e + 1074).toNat * 2 ^ 52 + m : Nat) : Int) = _
      omega
    unfold place
    rw [hDistance]
    cases s with
    | positive => exact Option.some.inj h ▸ .above hCanonical hFits
    | negative => exact Option.some.inj h ▸ .below hCanonical hFits

/-- Places are ordered as ranks are, lexicographically. -/
theorem Placed.lex {x y : Int × Int × Int} {p q : Int} (hx : Placed x p) (hy : Placed y q)
    (h : p ≤ q) : x.1 < y.1 ∨ x.1 = y.1 ∧ (x.2.1 < y.2.1 ∨ x.2.1 = y.2.1 ∧ x.2.2 ≤ y.2.2) := by
  -- infinities lie beyond all numbers, and a full mantissa outweighs one unit of the exponent
  cases hx with
  | top => cases hy <;> grind [cases Canonical]
  | bottom => cases hy <;> grind [cases Canonical]
  | zero => cases hy <;> grind [cases Canonical]
  | above hm hFits => cases hy <;> grind [cases Canonical]
  | below hm hFits => cases hy <;> grind [cases Canonical]

/-- Ranks are compared lexicographically. -/
theorem isLE_byRank_iff {x y : Int × Int × Int} : (byRank x y).isLE = true ↔
    x.1 < y.1 ∨ x.1 = y.1 ∧ (x.2.1 < y.2.1 ∨ x.2.1 = y.2.1 ∧ x.2.2 ≤ y.2.2) := by
  unfold byRank compareLex compareOn
  rw [Ordering.isLE_then_iff_or, Ordering.isLE_then_iff_or]
  simp only [Int.compare_eq_lt, Int.compare_eq_eq, Int.isLE_compare]

/-- The usual order orders by place. -/
theorem le_of_place {a b : Float} {x y : Int × Int × Int} (hx : rankOf a = some x)
    (hy : rankOf b = some y) (h : place a.toModel.unpack ≤ place b.toModel.unpack) : a ≤ b :=
  le_iff.mpr ⟨x, y, hx, hy,
    isLE_byRank_iff.mpr ((placed_of_rankOf hx).lex (placed_of_rankOf hy) h)⟩

end Binary64

instance instRankedFloat : RankedScalar Float where
  le_of_totalLt := by
    intro a b ha hb hBelow
    obtain ⟨x, hx⟩ := Binary64.exists_rankOf ha
    obtain ⟨y, hy⟩ := Binary64.exists_rankOf hb
    have hRanks := UInt64.lt_iff_toNat_lt.mp (of_decide_eq_true hBelow)
    exact Binary64.le_of_place hx hy (Binary64.place_le_of_rank hx hy hRanks.le)
  le_of_not_totalLt := by
    intro a b ha hb hNotBelow
    obtain ⟨x, hx⟩ := Binary64.exists_rankOf ha
    obtain ⟨y, hy⟩ := Binary64.exists_rankOf hb
    have hRanks := Nat.not_lt.mp fun hLt =>
      of_decide_eq_false hNotBelow (UInt64.lt_iff_toNat_lt.mpr hLt)
    exact Binary64.le_of_place hy hx (Binary64.place_le_of_rank hy hx hRanks)

end SwapSearch
