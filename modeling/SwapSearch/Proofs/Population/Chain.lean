import Mathlib.GroupTheory.Perm.Cycle.Concrete
import SwapSearch.Population.Mutation
import SwapSearch.Proofs.Permutation
import SwapSearch.Proofs.Random.Draws
import SwapSearch.Random.Generators

/-!
# SwapSearch — the mutation along a chain

A mutation exchanges overlapping pairs of positions, the first of a chain with the second,
the second with the third, and so on. Each exchange undoes half of the one before: the
item it passes on is the one just received. Only the last position keeps what it gets,
so in the end every position of the chain has the item of the next one, and the last has
the item of the first. This is the cycle that Mathlib calls the `formPerm` of the chain.

The chain is the tail of a rearranged range. So its positions are distinct, whatever the
random source, and there are as many of them as were asked for.

## Results

* `getElem?_exchangeAlong` — the exchanges along a chain are its cycle.
* `drawChain_distinct`     — a drawn chain has distinct positions.
* `chain_rotates`          — a mutation rotates the drawn positions and moves no other.
-/

namespace SwapSearch.Mutation

variable {p : Permutation} {positions : List Nat}

-- ---------------------------------------------------------------------------
-- Exchanges
-- ---------------------------------------------------------------------------

theorem size_exchangeAlong (positions : List Nat) (p : Permutation) :
    (exchangeAlong positions p).size = p.size := by
  match positions with
  | [] => rfl
  | [_] => rfl
  | i :: j :: rest => exact (size_exchangeAlong (j :: rest) _).trans (Permutation.size_swap ..)

/-- **The exchanges along a chain are its cycle.** -/
theorem getElem?_exchangeAlong {positions : List Nat} {p : Permutation}
    (hRange : ∀ i ∈ positions, i < p.size) (k : Nat) :
    (exchangeAlong positions p).values[k]? = p.values[positions.formPerm k]? := by
  match positions with
  | [] => rfl
  | [_] => rfl
  | i :: j :: rest =>
    obtain ⟨hi, hRest⟩ := List.forall_mem_cons.mp hRange
    have hj : j < p.size := hRest j (List.mem_cons_self ..)
    have hSwapped : ∀ m ∈ j :: rest, m < (p.swap i j).size := by
      intro m hm
      rw [Permutation.size_swap]
      exact hRest m hm
    show (exchangeAlong (j :: rest) (p.swap i j)).values[k]? = _
    rw [getElem?_exchangeAlong hSwapped, Permutation.getElem?_swap hi hj,
      List.formPerm_cons_cons, Equiv.Perm.mul_apply]

/-- A cycle through two positions or more leaves none of them alone. -/
theorem formPerm_moves (hDistinct : positions.Nodup) (hTwo : 2 ≤ positions.length) (k : Nat) :
    positions.formPerm k ≠ k ↔ k ∈ positions := by
  refine ⟨List.mem_of_formPerm_apply_ne, fun hMem => ?_⟩
  exact (List.formPerm_apply_mem_ne_self_iff positions hDistinct k hMem).mpr hTwo

/-- The positions where the second permutation has another item than the first. -/
def moved (p q : Permutation) : Finset Nat :=
  (Finset.range p.size).filter fun i => q.values[i]? ≠ p.values[i]?

/-- `q` is `p` with the items of distinct positions rotated along one cycle, and no other item has
moved. -/
structure Rotated (positions : List Nat) (p q : Permutation) : Prop where
  size : q.size = p.size
  distinct : positions.Nodup
  cycle : positions.formPerm.IsCycle
  items : ∀ i, q.values[i]? = p.values[positions.formPerm i]?
  moved : moved p q = positions.toFinset

theorem rotated_exchangeAlong (hDistinct : positions.Nodup) (hTwo : 2 ≤ positions.length)
    (hRange : ∀ i ∈ positions, i < p.size) : Rotated positions p (exchangeAlong positions p) := by
  have hItems := getElem?_exchangeAlong hRange
  have hCycle : positions.formPerm.IsCycle := List.isCycle_formPerm hDistinct hTwo
  refine ⟨size_exchangeAlong positions p, hDistinct, hCycle, hItems, ?_⟩
  ext i
  rw [moved, Finset.mem_filter, Finset.mem_range, List.mem_toFinset, hItems]
  constructor
  · rintro ⟨-, hNe⟩
    refine (formPerm_moves hDistinct hTwo i).mp fun hSame => hNe ?_
    rw [hSame]
  · intro hMem
    refine ⟨hRange i hMem, fun hSame => ?_⟩
    -- the items are distinct, so an item found at both positions shows that they are one
    obtain ⟨v, hv⟩ := Permutation.exists_getElem? (hRange i hMem)
    have hNext : p.values[positions.formPerm i]? = some v := hSame.trans hv
    exact (formPerm_moves hDistinct hTwo i).mpr hMem (Permutation.eq_of_getElem? hNext hv)

-- ---------------------------------------------------------------------------
-- Chains
-- ---------------------------------------------------------------------------

variable {ρ : Type} [RandomSource ρ]

theorem chainSize_le (length : Nat) {n : Nat} (hTwo : 2 ≤ n) : chainSize length n ≤ n :=
  Nat.max_le.mpr ⟨hTwo, Nat.min_le_right length n⟩

/-- **A drawn chain has distinct positions**, and as many as asked for. -/
theorem drawChain_distinct (length n : Nat) (r : ρ) :
    (drawChain length n r).1.Nodup ∧ (∀ i ∈ (drawChain length n r).1, i < n) ∧
      (2 ≤ n → (drawChain length n r).1.length = chainSize length n) := by
  -- the chain is the end of a shuffled range
  have hPerm : (Random.partialShuffle (chainSize length n) (Array.range n) r).1.toList.Perm
      (List.range n) := by
    rw [← Array.toList_range]
    exact Random.partialShuffle_perm (chainSize length n) (Array.range n) r
  have hDrawn : (drawChain length n r).1 = List.drop (n - chainSize length n)
      (Random.partialShuffle (chainSize length n) (Array.range n) r).1.toList := rfl
  have hSub := hDrawn ▸ List.drop_sublist (n - chainSize length n)
    (Random.partialShuffle (chainSize length n) (Array.range n) r).1.toList
  refine ⟨?_, ?_, ?_⟩
  · exact (hPerm.nodup_iff.mpr List.nodup_range).sublist hSub
  · intro i hi
    exact List.mem_range.mp (hPerm.mem_iff.mp (hSub.subset hi))
  · intro hTwo
    rw [hDrawn, List.length_drop, hPerm.length_eq, List.length_range]
    have hFits := chainSize_le length hTwo
    omega

theorem size_chain (length : Nat) (p : Permutation) (r : ρ) :
    (chain length p r).1.size = p.size := by
  unfold chain
  split
  · rfl
  · exact size_exchangeAlong _ p

/-- **A mutation rotates what it draws.** Fewer than two positions are left as they are, and so is
the random source. Of `n` positions, `length` are drawn, but no fewer than two and no more than `n`.
Their items are rotated along one cycle, and these are the only items that move. -/
theorem chain_rotates (length : Nat) (p : Permutation) (r : ρ) :
    (p.size < 2 → chain length p r = (p, r)) ∧
    (2 ≤ p.size → Rotated (drawChain length p.size r).1 p (chain length p r).1 ∧
      (moved p (chain length p r).1).card = max 2 (min length p.size)) := by
  refine ⟨fun hFew => if_pos hFew, fun hTwo => ?_⟩
  obtain ⟨hDistinct, hRange, hLength⟩ := drawChain_distinct length p.size r
  have hEnough : 2 ≤ (drawChain length p.size r).1.length := by
    rw [hLength hTwo]
    exact Nat.le_max_left 2 (min length p.size)
  have hChain : (chain length p r).1 = exchangeAlong (drawChain length p.size r).1 p := by
    unfold chain
    rw [if_neg (Nat.not_lt.mpr hTwo)]
  have hRotated : Rotated (drawChain length p.size r).1 p (chain length p r).1 :=
    hChain ▸ rotated_exchangeAlong hDistinct hEnough hRange
  refine ⟨hRotated, ?_⟩
  rw [hRotated.moved, List.toFinset_card_of_nodup hDistinct, hLength hTwo]
  rfl

/-- One position is left alone; of five, the chain goes through three. -/
theorem chain_rotates_three_of_five :
    (Permutation.identity 1).size < 2 ∧
    chain 3 (Permutation.identity 1) (⟨7⟩ : Random.SplitMix) = (Permutation.identity 1, ⟨7⟩) ∧
    2 ≤ (Permutation.identity 5).size ∧
    (chain 3 (Permutation.identity 5) (⟨7⟩ : Random.SplitMix)).1.values = #[4, 0, 2, 3, 1] ∧
    Rotated [0, 4, 1] (Permutation.identity 5)
      (chain 3 (Permutation.identity 5) (⟨7⟩ : Random.SplitMix)).1 ∧
    (moved (Permutation.identity 5)
      (chain 3 (Permutation.identity 5) (⟨7⟩ : Random.SplitMix)).1).card = 3 := by
  have hOne : (Permutation.identity 1).size < 2 := by decide
  have hFive : 2 ≤ (Permutation.identity 5).size := by decide
  have hChain : (drawChain 3 5 (⟨7⟩ : Random.SplitMix)).1 = [0, 4, 1] := by decide +kernel
  obtain ⟨hRotated, hCount⟩ :=
    (chain_rotates 3 (Permutation.identity 5) (⟨7⟩ : Random.SplitMix)).2 hFive
  rw [Permutation.size_identity, hChain] at hRotated
  exact ⟨hOne, (chain_rotates 3 (Permutation.identity 1) (⟨7⟩ : Random.SplitMix)).1 hOne, hFive,
    by decide +kernel, hRotated, hCount⟩

end SwapSearch.Mutation
