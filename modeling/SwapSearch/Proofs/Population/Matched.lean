import Mathlib.Data.Set.Insert
import Mathlib.Logic.Relation
import Mathlib.Order.Interval.Set.Defs
import SwapSearch.Population.Crossover
import SwapSearch.Proofs.Permutation
import SwapSearch.Proofs.Random.Draws

/-!
# SwapSearch — the partially matched child

The partially matched crossover is usually told by chains. On a segment of positions the
child has the items of the second parent. Elsewhere it would have the item of the first
parent, but the segment may have taken that item already. Then the item which the first
parent has in its place on the segment comes in for it, and if that one is taken as well,
the next one, until an item is reached that the segment did not take.

The operator follows no chain. It brings the items of the segment to their places one by
one, each in exchange for the item there. That both make the same child holds after every
exchange, for the part of the segment dealt with so far: an exchange appends one link and
all that comes after it to the one chain that ended in the item brought. It does not matter
in which order the positions come, nor that items are displaced before their turn.

## Results

* `Draft.exists_of_bring` — an item is exchanged with what lies at its new position.
* `Matches.exchange`      — such an exchange deals with one more position of the segment.
* `Settles.acc`           — a chain that leaves the segment has nowhere else to go.
* `matched_settles`       — the child is the one that the chains describe.
* `drawSegment_fits`      — a drawn segment has such a child.
-/

namespace SwapSearch.Crossover

open Relation

variable {first second child : Permutation} {segment : Set Nat} {i j n v x y : Nat}

-- ---------------------------------------------------------------------------
-- Chains
-- ---------------------------------------------------------------------------

/-- Somewhere on the segment the second parent has `x` where the first has `y`. -/
def Displaces (first second : Permutation) (segment : Set Nat) (x y : Nat) : Prop :=
  ∃ i ∈ segment, second.values[i]? = some x ∧ first.values[i]? = some y

/-- The chain from `x` ends in `v`, which the second parent does not have on the segment. -/
structure Settles (first second : Permutation) (segment : Set Nat) (x v : Nat) : Prop where
  chain : ReflTransGen (Displaces first second segment) x v
  free : ∀ i ∈ segment, second.values[i]? ≠ some v

/-- A longer segment displaces what a shorter one does. -/
theorem chain_mono {larger : Set Nat} (hSub : segment ⊆ larger)
    (h : ReflTransGen (Displaces first second segment) x y) :
    ReflTransGen (Displaces first second larger) x y := by
  refine ReflTransGen.mono ?_ _ _ h
  rintro _ _ ⟨i, hi, hTaken, hGiven⟩
  exact ⟨i, hSub hi, hTaken, hGiven⟩

/-- An item lies at one position of the second parent, so it is displaced by one item only. -/
theorem Displaces.unique {z : Nat} (hy : Displaces first second segment x y)
    (hz : Displaces first second segment x z) : y = z := by
  obtain ⟨i, -, hTaken, hGiven⟩ := hy
  obtain ⟨k, -, hTaken', hGiven'⟩ := hz
  obtain rfl := Permutation.eq_of_getElem? hTaken hTaken'
  exact Option.some.inj (hGiven.symm.trans hGiven')

theorem Settles.not_displaces (h : Settles first second segment x v) :
    ¬ Displaces first second segment v y := by
  rintro ⟨i, hi, hTaken, -⟩
  exact h.free i hi hTaken

/-- A chain that leaves the segment has nowhere else to go. -/
theorem Settles.acc (h : Settles first second segment x v) :
    Acc (fun y x => Displaces first second segment x y) x := by
  obtain ⟨hChain, hFree⟩ := h
  have hEnd : Settles first second segment v v := ⟨.refl, hFree⟩
  induction hChain using ReflTransGen.head_induction_on with
  | refl => exact ⟨_, fun y hy => absurd hy hEnd.not_displaces⟩
  | head hLink _ ih => exact ⟨_, fun y hy => hLink.unique hy ▸ ih⟩

/-- A chain has only one end. -/
theorem Settles.unique {w : Nat} (hv : Settles first second segment x v)
    (hw : Settles first second segment x w) : v = w := by
  obtain ⟨hChain, hFree⟩ := hv
  have hEnd : Settles first second segment v v := ⟨.refl, hFree⟩
  induction hChain using ReflTransGen.head_induction_on with
  | refl =>
    rcases ReflTransGen.cases_head hw.chain with hSame | ⟨y, hy, -⟩
    · exact hSame
    · exact absurd hy hEnd.not_displaces
  | @head x z hLink _ ih =>
    rcases ReflTransGen.cases_head hw.chain with rfl | ⟨y, hy, hRest⟩
    · exact absurd hLink hw.not_displaces
    · exact ih ⟨hLink.unique hy ▸ hRest, hw.free⟩

-- ---------------------------------------------------------------------------
-- Exchanges
-- ---------------------------------------------------------------------------

/-- The child has the items of the second parent on the segment, and elsewhere those in which the
chains from the first parent end. -/
structure Matches (first second : Permutation) (segment : Set Nat) (child : Permutation) :
    Prop where
  size : child.size = first.size
  inside : ∀ i ∈ segment, child.values[i]? = second.values[i]?
  outside : ∀ i x, i ∉ segment → first.values[i]? = some x →
    ∃ v, child.values[i]? = some v ∧ Settles first second segment x v

/-- The first parent matches the empty segment. -/
theorem matches_first : Matches first second ∅ first where
  size := rfl
  inside _ hi := hi.elim
  outside _ x _ hx := ⟨x, hx, .refl, fun _ hi => hi.elim⟩

/-- An item that the longer segment does not take either. -/
theorem Settles.insert (h : Settles first second segment x v)
    (hFree : second.values[i]? ≠ some v) : Settles first second (insert i segment) x v := by
  refine ⟨chain_mono (Set.subset_insert i segment) h.chain, ?_⟩
  intro k hk
  rcases Set.mem_insert_iff.mp hk with rfl | hk
  · exact hFree
  · exact h.free k hk

/-- **One exchange deals with one more position.** The item that the second parent has at `i` lies
at `j` in the child. Exchanged, it comes to its place, and what it displaces prolongs the chain that
had ended in it. -/
theorem Matches.exchange (h : Matches first second segment child) (hi : i < first.size)
    (hNew : i ∉ segment) (hItem : second.values[i]? = some v) (hAt : child.values[j]? = some v) :
    Matches first second (insert i segment) (child.swap i j) := by
  have hi' : i < child.size := h.size ▸ hi
  have hj := Permutation.position_lt hAt
  -- in the segment the child agrees with the second parent, which has the item at `i` only
  have hjNew : j ∉ segment := by
    intro hMem
    have hSame : second.values[j]? = some v := (h.inside j hMem).symm.trans hAt
    exact hNew (Permutation.eq_of_getElem? hItem hSame ▸ hMem)
  refine ⟨(Permutation.size_swap ..).trans h.size, ?_, ?_⟩
  · intro k hk
    rw [Permutation.getElem?_swap hi' hj]
    rcases Set.mem_insert_iff.mp hk with rfl | hk
    · rw [Equiv.swap_apply_left, hAt, hItem]
    · have hki : k ≠ i := fun hEq => hNew (hEq ▸ hk)
      have hkj : k ≠ j := fun hEq => hjNew (hEq ▸ hk)
      rw [Equiv.swap_apply_of_ne_of_ne hki hkj]
      exact h.inside k hk
  · intro k x hk hx
    obtain ⟨hki, hkNew⟩ : k ≠ i ∧ k ∉ segment := by simpa using hk
    obtain ⟨u, hu, hSettles⟩ := h.outside k x hkNew hx
    rw [Permutation.getElem?_swap hi' hj]
    by_cases hkj : k = j
    · -- the chain had ended in the item brought, and goes on through the item displaced
      subst hkj
      obtain rfl := Option.some.inj (hu.symm.trans hAt)
      obtain ⟨y, hy⟩ := Permutation.exists_getElem? hi
      obtain ⟨w, hw, hRest⟩ := h.outside i y hNew hy
      have hFree : second.values[i]? ≠ some w := by
        intro hEq
        rw [Option.some.inj (hEq.symm.trans hItem)] at hw
        exact hki (Permutation.eq_of_getElem? hAt hw)
      rw [Equiv.swap_apply_right]
      refine ⟨w, hw, ?_, (hRest.insert hFree).free⟩
      have hBefore : ReflTransGen (Displaces first second (insert i segment)) x u :=
        chain_mono (Set.subset_insert i segment) hSettles.chain
      have hLink : Displaces first second (insert i segment) u y :=
        ⟨i, Set.mem_insert i segment, hItem, hy⟩
      exact (hBefore.tail hLink).trans (hRest.insert hFree).chain
    · rw [Equiv.swap_apply_of_ne_of_ne hki hkj]
      refine ⟨u, hu, hSettles.insert fun hEq => hkj ?_⟩
      rw [Option.some.inj (hEq.symm.trans hItem)] at hu
      exact Permutation.eq_of_getElem? hu hAt

-- ---------------------------------------------------------------------------
-- Drafts
-- ---------------------------------------------------------------------------

namespace Draft

/-- The positions on record are those of the child's items. -/
structure Indexed (d : Draft) : Prop where
  size : d.position.size = d.child.size
  position : ∀ i v : Nat, d.child.values[i]? = some v → d.position[v]? = some i

/-- A position stays on record if its item does not come again. -/
theorem getElem?_foldl_set_of_not_mem {entries : List (Nat × Nat)} {position : Array Nat}
    (h : v ∉ entries.map (·.1)) :
    (entries.foldl (fun position (item, i) => position.setIfInBounds item i) position)[v]? =
      position[v]? := by
  induction entries generalizing position with
  | nil => rfl
  | cons entry rest ih =>
    obtain ⟨hNe, hRest⟩ : v ≠ entry.1 ∧ v ∉ rest.map (·.1) := by simpa using h
    rw [List.foldl_cons, ih hRest]
    exact Array.getElem?_setIfInBounds_ne hNe.symm

theorem getElem?_foldl_set {entries : List (Nat × Nat)} {position : Array Nat}
    (hDistinct : (entries.map (·.1)).Nodup) (hMem : (v, i) ∈ entries) (hv : v < position.size) :
    (entries.foldl (fun position (item, i) => position.setIfInBounds item i) position)[v]? =
      some i := by
  induction entries generalizing position with
  | nil => simp at hMem
  | cons entry rest ih =>
    obtain ⟨hNot, hDistinct⟩ := List.nodup_cons.mp hDistinct
    rw [List.foldl_cons]
    rcases List.mem_cons.mp hMem with rfl | hMem
    · rw [getElem?_foldl_set_of_not_mem hNot]
      exact Array.getElem?_setIfInBounds_self_of_lt hv
    · exact ih hDistinct hMem (by simpa using hv)

theorem indexed_ofParent (p : Permutation) : (ofParent p).Indexed := by
  -- writing the record does not change its size
  have hSize : ∀ (entries : List (Nat × Nat)) (position : Array Nat),
      (entries.foldl (fun position (item, i) => position.setIfInBounds item i) position).size =
        position.size := by
    intro entries
    induction entries with
    | nil => intro position; rfl
    | cons entry rest ih => intro position; simp [ih]
  have hParent : (ofParent p).position = p.values.zipIdx.toList.foldl
      (fun position (item, i) => position.setIfInBounds item i) (Array.replicate p.size 0) :=
    (Array.foldl_toList ..).symm
  refine ⟨?_, fun i v hv => ?_⟩
  · rw [hParent, hSize, Array.size_replicate]
    rfl
  · rw [hParent]
    -- no item comes twice, so no entry of the record is overwritten
    refine getElem?_foldl_set ?_ ?_ ?_
    · rw [Array.toList_zipIdx, List.zipIdx_map_fst]
      exact p.isPermutation.2
    · rw [Array.toList_zipIdx, List.mk_mem_zipIdx_iff_getElem?, Array.getElem?_toList]
      exact hv
    · rw [Array.size_replicate]
      exact Permutation.item_lt hv

/-- An item is exchanged with what lies at its new position, and the record is kept. -/
theorem exists_of_bring {d : Draft} (h : d.Indexed) (hi : i < d.child.size)
    (hv : v < d.child.size) :
    ∃ j, d.child.values[j]? = some v ∧ (d.bring i v).child = d.child.swap i j ∧
      (d.bring i v).Indexed := by
  obtain ⟨j, hj⟩ := Permutation.exists_getElem?_of_lt hv
  obtain ⟨u, hu⟩ := Permutation.exists_getElem? hi
  -- the record says where the item lies
  have hPosition : d.position.getD v i = j := by
    rw [Array.getD_eq_getD_getElem?, h.position j v hj]
    rfl
  have hDisplaced : d.child.values.getD i 0 = u := by
    rw [Array.getD_eq_getD_getElem?, hu]
    rfl
  refine ⟨j, hj, ?_⟩
  unfold bring
  simp only [hPosition, hDisplaced]
  split
  · next hSame =>
    rw [hSame, Permutation.swap_self hi]
    exact ⟨rfl, h⟩
  · next hApart =>
    have hjLess := Permutation.position_lt hj
    have hvu : v ≠ u := fun hEq => hApart (Permutation.eq_of_getElem? hj (hEq ▸ hu))
    refine ⟨rfl, by simpa using h.size, fun k w hw => ?_⟩
    dsimp only at hw ⊢
    rw [Permutation.getElem?_swap hi hjLess] at hw
    -- only two positions have changed their items, and both are recorded anew
    rcases eq_or_ne k i with rfl | hki
    · rw [Equiv.swap_apply_left] at hw
      obtain rfl := Option.some.inj (hj.symm.trans hw)
      exact Array.getElem?_setIfInBounds_self_of_lt (by simpa [h.size] using hv)
    · rcases eq_or_ne k j with rfl | hkj
      · rw [Equiv.swap_apply_right] at hw
        obtain rfl := Option.some.inj (hu.symm.trans hw)
        have huLess : u < d.child.size := Permutation.item_lt hu
        rw [Array.getElem?_setIfInBounds_ne hvu]
        exact Array.getElem?_setIfInBounds_self_of_lt (by simpa [h.size] using huLess)
      · rw [Equiv.swap_apply_of_ne_of_ne hki hkj] at hw
        have hwv : v ≠ w := fun hEq => hkj (Permutation.eq_of_getElem? hw (hEq ▸ hj))
        have hwu : u ≠ w := fun hEq => hki (Permutation.eq_of_getElem? hw (hEq ▸ hu))
        rw [Array.getElem?_setIfInBounds_ne hwv, Array.getElem?_setIfInBounds_ne hwu]
        exact h.position k w hw

/-- The exchanges deal with any positions, in any order. -/
theorem matches_foldl {positions : List Nat} {d : Draft} (hSize : first.size = second.size)
    (hDistinct : positions.Nodup) (hNew : ∀ i ∈ positions, i < first.size ∧ i ∉ segment)
    (h : d.Indexed) (hMatches : Matches first second segment d.child) :
    Matches first second (segment ∪ {i | i ∈ positions})
      (positions.foldl (fun d i => d.bring i (second.values.getD i 0)) d).child := by
  -- on the positions to come, with those dealt with added to the segment
  induction positions generalizing d segment with
  | nil => simpa using hMatches
  | cons i rest ih =>
    obtain ⟨hNot, hDistinct⟩ := List.nodup_cons.mp hDistinct
    obtain ⟨⟨hi, hFresh⟩, hRest⟩ := List.forall_mem_cons.mp hNew
    obtain ⟨v, hv⟩ := Permutation.exists_getElem? (hSize ▸ hi)
    have hItem : second.values.getD i 0 = v := by
      rw [Array.getD_eq_getD_getElem?, hv]
      rfl
    have hvLess : v < d.child.size := by
      rw [hMatches.size, hSize]
      exact Permutation.item_lt hv
    obtain ⟨j, hj, hChild, hIndexed⟩ := exists_of_bring h (hMatches.size ▸ hi) hvLess
    have hNext : Matches first second (insert i segment) (d.bring i v).child := by
      rw [hChild]
      exact hMatches.exchange hi hFresh hv hj
    -- no position comes twice, so the rest is still new
    have hStill : ∀ k ∈ rest, k < first.size ∧ k ∉ insert i segment := by
      intro k hk
      refine ⟨(hRest k hk).1, fun hMem => ?_⟩
      rcases Set.mem_insert_iff.mp hMem with rfl | hOld
      · exact hNot hk
      · exact (hRest k hk).2 hOld
    have hAll : insert i segment ∪ {k | k ∈ rest} = segment ∪ {k | k ∈ i :: rest} := by
      ext k
      simp only [Set.mem_union, Set.mem_insert_iff, Set.mem_ofPred_eq, List.mem_cons]
      tauto
    rw [List.foldl_cons, hItem, ← hAll]
    exact ih hDistinct hStill hIndexed hNext

end Draft

-- ---------------------------------------------------------------------------
-- The child
-- ---------------------------------------------------------------------------

theorem matches_matched (hSize : first.size = second.size) {lo hi : Nat} (hOrder : lo ≤ hi)
    (hFits : hi < first.size) :
    ∃ child, matched first second lo hi = .ok child ∧
      Matches first second (Set.Icc lo hi) child := by
  unfold matched
  rw [if_neg (not_not_intro hSize), if_neg (by omega)]
  refine ⟨_, rfl, ?_⟩
  have hSegment : (∅ : Set Nat) ∪ {i | i ∈ List.range' lo (hi + 1 - lo)} = Set.Icc lo hi := by
    ext i
    simp only [Set.empty_union, Set.mem_ofPred_eq, List.mem_range'_1, Set.mem_Icc]
    omega
  rw [← hSegment]
  refine Draft.matches_foldl hSize List.nodup_range' (fun i hi => ?_) (Draft.indexed_ofParent first)
    matches_first
  have hRange := List.mem_range'_1.mp hi
  exact ⟨by omega, Set.notMem_empty i⟩

/-- **The child of the chains.** Two parents of one size with ordered cut points have a partially
matched child. On the segment it equals the second parent. At every other position the chain from
the item of the first parent comes to an end, and the child has the item in which it ends. -/
theorem matched_settles (hSize : first.size = second.size) {lo hi : Nat} (hOrder : lo ≤ hi)
    (hFits : hi < first.size) :
    ∃ child, matched first second lo hi = .ok child ∧ child.size = first.size ∧
      (∀ i ∈ Set.Icc lo hi, child.values[i]? = second.values[i]?) ∧
      ∀ i x, i ∉ Set.Icc lo hi → first.values[i]? = some x →
        Acc (fun y x => Displaces first second (Set.Icc lo hi) x y) x ∧
        ∀ v, child.values[i]? = some v ↔ Settles first second (Set.Icc lo hi) x v := by
  obtain ⟨child, hMade, hMatches⟩ := matches_matched hSize hOrder hFits
  refine ⟨child, hMade, hMatches.size, hMatches.inside, fun i x hi hx => ?_⟩
  obtain ⟨v, hv, hSettles⟩ := hMatches.outside i x hi hx
  refine ⟨hSettles.acc, fun w => ⟨fun hw => ?_, fun hw => ?_⟩⟩
  · obtain rfl := Option.some.inj (hv.symm.trans hw)
    exact hSettles
  · rw [hv, hSettles.unique hw]

def firstOfSeven : Permutation := ⟨#[5, 1, 2, 3, 0, 6, 4], by decide, by decide⟩

def secondOfSeven : Permutation := ⟨#[4, 1, 3, 0, 2, 6, 5], by decide, by decide⟩

/-- At position 2 the first parent has the item 2, which the segment takes; it has 0 for it, which
is taken as well, and 3 for that. -/
theorem matched_settles_two_links :
    firstOfSeven.size = secondOfSeven.size ∧ 3 ≤ 5 ∧ 5 < firstOfSeven.size ∧
    ∃ child, matched firstOfSeven secondOfSeven 3 5 = .ok child ∧
      child.values = #[5, 1, 3, 0, 2, 6, 4] ∧
      (∀ i ∈ Set.Icc 3 5, child.values[i]? = secondOfSeven.values[i]?) ∧
      firstOfSeven.values[2]? = some 2 ∧ Settles firstOfSeven secondOfSeven (Set.Icc 3 5) 2 3 := by
  have hSize : firstOfSeven.size = secondOfSeven.size := rfl
  have hOrder : 3 ≤ 5 := by decide
  have hFits : 5 < firstOfSeven.size := by decide
  obtain ⟨child, hMade, -, hInside, hOutside⟩ := matched_settles hSize hOrder hFits
  have hChild : (matched firstOfSeven secondOfSeven 3 5).toOption.map (·.values) =
      some #[5, 1, 3, 0, 2, 6, 4] := by decide +kernel
  rw [hMade] at hChild
  have hValues : child.values = #[5, 1, 3, 0, 2, 6, 4] := Option.some.inj hChild
  refine ⟨hSize, hOrder, hFits, child, hMade, hValues, hInside, rfl, ?_⟩
  obtain ⟨-, hEnds⟩ := hOutside 2 2 (by simp) rfl
  exact (hEnds 3).mp (by rw [hValues]; rfl)

-- ---------------------------------------------------------------------------
-- Drawn segments
-- ---------------------------------------------------------------------------

variable {ρ : Type} [RandomSource ρ]

/-- A drawn segment fits. -/
theorem drawSegment_fits {n : Nat} (hPositive : 0 < n) (r : ρ) :
    (drawSegment n r).1.1 ≤ (drawSegment n r).1.2 ∧ (drawSegment n r).1.2 < n := by
  have hFirst := Random.below_lt hPositive r
  have hSecond := Random.below_lt hPositive (Random.below n r).2
  exact ⟨by unfold drawSegment; dsimp only; omega, by unfold drawSegment; dsimp only; omega⟩

theorem randomMatched_succeeds (hSize : first.size = second.size) (hPositive : 0 < first.size)
    (r : ρ) :
    ∃ child, (randomMatched first second r).1 = .ok child ∧ child.size = first.size := by
  have hSome : first.isEmpty = false := by
    unfold Permutation.isEmpty
    exact beq_eq_false_iff_ne.mpr (Nat.pos_iff_ne_zero.mp hPositive)
  obtain ⟨hOrder, hFits⟩ := drawSegment_fits hPositive r
  unfold randomMatched
  rw [hSome, if_neg Bool.false_ne_true]
  obtain ⟨child, hMade, hMatches⟩ := matches_matched hSize hOrder hFits
  exact ⟨child, hMade, hMatches.size⟩

end SwapSearch.Crossover
