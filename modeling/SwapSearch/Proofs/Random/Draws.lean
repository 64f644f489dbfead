import SwapSearch.Random.Shuffle

/-!
# SwapSearch — what draws can yield

Nothing is assumed of a random source, so a draw is characterised by what every
source makes of it: an index lies below its range, whatever the words are, and a
shuffle holds what was shuffled.

An index is the high part of a product, and a carry from a second word may raise it
by one. It still lies below the range, because the low part of the largest product
is too small for a carry (`carried_lt`).

## Results

* `below_lt`            — an index lies below its range.
* `partialShuffle_perm` — a shuffle rearranges what it is given, also a partial one.
* `mem_shuffle`         — in particular it brings in nothing.
-/

namespace SwapSearch

namespace Random

theorem scaled_fst_lt {w x range : Nat} (hx : x < w) (hRange : 0 < range) :
    (scaled w x range).1 < range := by
  show x * range / w < range
  rw [Nat.div_lt_iff_lt_mul (by omega), Nat.mul_comm]
  exact Nat.mul_lt_mul_of_pos_left hx hRange

/-- A carry raises only indices that have one above them. -/
theorem carried_lt {w x y range : Nat} (hx : x < w) (hy : y < w) (hRange : 0 < range)
    (hCarry : w ≤ (scaled w x range).2 + (scaled w y range).1) :
    (scaled w x range).1 + 1 < range := by
  have hSplit : w * (scaled w x range).1 + (scaled w x range).2 = x * range :=
    Nat.div_add_mod (x * range) w
  have hIndex := scaled_fst_lt hx hRange
  have hOther := scaled_fst_lt hy hRange
  have hProduct : x * range + range ≤ w * range := by
    calc x * range + range = (x + 1) * range := by rw [Nat.add_mul, Nat.one_mul]
      _ ≤ w * range := Nat.mul_le_mul_right range hx
  rcases Nat.lt_or_ge ((scaled w x range).1 + 1) range with hLt | hGe
  · exact hLt
  · -- the last index leaves a low part of at most `w - range`
    exfalso
    have hLast : (scaled w x range).1 + 1 = range := by omega
    have hWhole : w * range = w * (scaled w x range).1 + w := by
      calc w * range = w * ((scaled w x range).1 + 1) := congrArg (w * ·) hLast.symm
        _ = w * (scaled w x range).1 + w := by rw [Nat.mul_add, Nat.mul_one]
    omega

variable {ρ : Type}

/-- An index lies below its range, whatever words it is drawn from. -/
theorem indexFrom_lt {w range : Nat} (draw : ρ → Fin w × ρ) (hRange : 0 < range) (r : ρ) :
    (indexFrom draw range r).1 < range := by
  have hHigh (x : Fin w) : (scaled w x range).1 < range := scaled_fst_lt x.isLt hRange
  unfold indexFrom
  dsimp only
  split
  · split
    · next hCarry => exact carried_lt (draw r).1.isLt (draw (draw r).2).1.isLt hRange hCarry
    · exact hHigh _
  · exact hHigh _

variable [RandomSource ρ]

/-- An index lies below its range. -/
theorem below_lt {range : Nat} (hRange : 0 < range) (r : ρ) : (below range r).1 < range := by
  unfold below
  split
  · exact indexFrom_lt draw32 hRange r
  · exact indexFrom_lt draw64 hRange r

/-- A partial shuffle rearranges what it is given. -/
theorem partialShuffle_perm {β : Type} (amount : Nat) (xs : Array β) (r : ρ) :
    (partialShuffle amount xs r).1.toList.Perm xs.toList :=
  exchangeFrom_keeps (P := fun ys => ys.toList.Perm xs.toList)
    (fun ys i j hPerm => (swapIfInBounds_perm ys i j).trans hPerm) _ _ _ _ _ (List.Perm.refl _)

theorem shuffle_perm {β : Type} (xs : Array β) (r : ρ) : (shuffle xs r).1.toList.Perm xs.toList :=
  partialShuffle_perm xs.size xs r

/-- A shuffle brings in nothing. -/
theorem mem_shuffle {β : Type} {xs : Array β} {r : ρ} {x : β} (h : x ∈ (shuffle xs r).1) :
    x ∈ xs :=
  Array.mem_toList_iff.mp ((shuffle_perm xs r).mem_iff.mp (Array.mem_toList_iff.mpr h))

end Random

theorem Permutation.size_random {ρ : Type} [RandomSource ρ] (n : Nat) (r : ρ) :
    (Permutation.random n r).1.size = n := by
  have hLength := (Random.shuffle_perm (Array.range n) r).length_eq
  rw [Array.length_toList, Array.length_toList, Array.size_range] at hLength
  exact hLength

end SwapSearch
