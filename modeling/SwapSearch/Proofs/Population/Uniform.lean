import Mathlib.Data.List.Nodup
import Mathlib.Data.List.ReduceOption
import SwapSearch.Population.Crossover
import SwapSearch.Proofs.Permutation
import SwapSearch.Proofs.Random.Draws
import SwapSearch.Random.Generators

/-!
# SwapSearch — the uniform child

The uniform crossover lays items into a mosaic, and only at the end is a bijection asked
for. What makes it one is kept all along: the items laid so far are distinct, and they are
the items marked as used. So there are as many unused items as holes, and filling never
runs out of them.

Where the parents agree the child agrees with them, and elsewhere it takes after one of
them if it can. It cannot only if both items lie at other positions already. An item that
is laid stays where it is, so what is true of a position when its turn comes is still true
when the holes are filled.

## Results

* `Mosaic.isPermutation_fill` — the holes filled with the unused items.
* `Mosaic.agreed_agreement`   — what the parents agree on is laid, and nothing else is.
* `Mosaic.coherent_choose`    — a position takes an item of a parent unless both are laid.
* `uniform_succeeds`          — the uniform child is a bijection.
* `uniform_inherits`          — where the items of the child come from.
-/

namespace SwapSearch.Crossover

-- ---------------------------------------------------------------------------
-- Slots
-- ---------------------------------------------------------------------------

/-- An item laid into an empty slot joins the items laid before. -/
theorem reduceOption_set_perm {slots : List (Option Nat)} {i item : Nat}
    (h : slots[i]? = some none) :
    (slots.set i (some item)).reduceOption.Perm (item :: slots.reduceOption) := by
  induction slots generalizing i with
  | nil => exact nomatch h
  | cons slot rest ih =>
    cases i with
    | zero =>
      obtain rfl := Option.some.inj h
      exact List.Perm.refl _
    | succ i =>
      have hRest := ih h
      cases slot with
      | none => exact hRest
      | some first => exact (hRest.cons first).trans (List.Perm.swap ..)

/-- Every slot has an item or is a hole. -/
theorem length_reduceOption_add_count (slots : List (Option Nat)) :
    slots.reduceOption.length + slots.count none = slots.length := by
  induction slots with
  | nil => rfl
  | cons slot rest ih =>
    cases slot with
    | none =>
      rw [List.reduceOption_cons_of_none, List.count_cons_self, List.length_cons, ← ih]
      exact (Nat.add_assoc ..).symm
    | some item =>
      rw [List.reduceOption_cons_of_some, List.count_cons_of_ne (Option.some_ne_none item),
        List.length_cons, List.length_cons, ← ih]
      exact Nat.succ_add ..

-- ---------------------------------------------------------------------------
-- Filling
-- ---------------------------------------------------------------------------

/-- The holes are filled from left to right with the items, none of which is missing or left
over. -/
inductive Filled : List (Option Nat) → List Nat → List Nat → Prop
  | done : Filled [] [] []
  | kept {slots items child} (item : Nat) :
      Filled slots items child → Filled (some item :: slots) items (item :: child)
  | hole {slots items child} (item : Nat) :
      Filled slots items child → Filled (none :: slots) (item :: items) (item :: child)

namespace Filled

variable {slots : List (Option Nat)} {items child : List Nat}

/-- What was laid is kept, and the items are added. -/
theorem perm (h : Filled slots items child) : child.Perm (slots.reduceOption ++ items) := by
  induction h with
  | done => exact List.Perm.refl _
  | kept item _ ih => exact ih.cons item
  | hole item _ ih => exact (ih.cons item).trans List.perm_middle.symm

/-- What was laid is kept in its place. -/
theorem getElem? (h : Filled slots items child) {i item : Nat}
    (hSlot : slots[i]? = some (some item)) : child[i]? = some item := by
  induction h generalizing i with
  | done => exact nomatch hSlot
  | kept other _ ih =>
    cases i with
    | zero => exact Option.some.inj hSlot
    | succ i => exact ih hSlot
  | hole other _ ih =>
    cases i with
    | zero => exact nomatch hSlot
    | succ i => exact ih hSlot

end Filled

namespace Mosaic

/-- An item for every hole is all that filling needs. -/
theorem filled_fill {slots : List (Option Nat)} {items : List Nat}
    (h : items.length = slots.count none) : Filled slots items (fill slots items) := by
  induction slots generalizing items with
  | nil =>
    obtain rfl := List.length_eq_zero_iff.mp h
    exact .done
  | cons slot rest ih =>
    cases slot with
    | some item =>
      rw [List.count_cons_of_ne (Option.some_ne_none item)] at h
      exact .kept item (ih h)
    | none =>
      rw [List.count_cons_self] at h
      match items, h with
      | item :: others, h => exact .hole item (ih (Nat.succ.inj h))

-- ---------------------------------------------------------------------------
-- Mosaics
-- ---------------------------------------------------------------------------

/-- The items laid so far. -/
def laid (m : Mosaic) : List Nat := m.slots.toList.reduceOption

/-- Nothing lies at this position. -/
def IsHole (m : Mosaic) (i : Nat) : Prop := m.slots[i]? = some none

/-- The items laid are distinct, and they are those marked as used. -/
structure Coherent (n : Nat) (m : Mosaic) : Prop where
  slots : m.slots.size = n
  used : m.used.size = n
  distinct : m.laid.Nodup
  marked : ∀ item, item ∈ m.laid ↔ item < n ∧ m.isUsed item = true

variable {n i item x y : Nat} {m : Mosaic}

theorem isHole_lay (h : m.IsHole x) (hApart : x ≠ i) : (m.lay i item).IsHole x := by
  unfold IsHole lay
  rw [Array.getElem?_setIfInBounds_ne hApart.symm]
  exact h

theorem isUsed_lay (hItem : item < m.used.size) :
    (m.lay i item).isUsed x = true ↔ x = item ∨ m.isUsed x = true := by
  unfold isUsed lay
  rw [Array.getD_eq_getD_getElem?, Array.getD_eq_getD_getElem?, Array.getElem?_setIfInBounds]
  by_cases hEq : item = x
  · subst hEq
    simp [hItem]
  · simp [hEq, Ne.symm hEq]

theorem mem_laid : item ∈ m.laid ↔ ∃ i : Nat, m.slots[i]? = some (some item) := by
  unfold laid
  rw [List.reduceOption_mem_iff, Array.mem_toList_iff, Array.mem_iff_getElem?]

theorem coherent_blank (n : Nat) : Coherent n (blank n) := by
  have hNone : (blank n).laid = [] := by
    unfold laid blank
    rw [Array.toList_replicate, List.reduceOption_replicate_none]
  refine ⟨Array.size_replicate .., Array.size_replicate .., hNone ▸ List.nodup_nil, fun item => ?_⟩
  rw [hNone]
  refine ⟨fun h => (List.not_mem_nil h).elim, fun ⟨hItem, hUsed⟩ => ?_⟩
  simp [isUsed, blank, Array.getD_eq_getD_getElem?, hItem] at hUsed

theorem isHole_blank (h : i < n) : (blank n).IsHole i := by
  simp [IsHole, blank, h]

/-- An unused item may be laid into a hole. -/
theorem Coherent.lay (h : Coherent n m) (hHole : m.IsHole i) (hItem : item < n)
    (hUnused : m.isUsed item = false) : Coherent n (m.lay i item) := by
  -- one item more is laid, in whatever order
  have hLaid : (m.lay i item).laid.Perm (item :: m.laid) := by
    unfold laid Mosaic.lay
    rw [Array.toList_setIfInBounds]
    exact reduceOption_set_perm (Array.getElem?_toList ▸ hHole)
  have hNew : item ∉ m.laid := fun hMem =>
    Bool.false_ne_true (hUnused.symm.trans ((h.marked item).mp hMem).2)
  refine ⟨(Array.size_setIfInBounds ..).trans h.slots, (Array.size_setIfInBounds ..).trans h.used,
    hLaid.nodup_iff.mpr (List.nodup_cons.mpr ⟨hNew, h.distinct⟩), fun x => ?_⟩
  rw [hLaid.mem_iff, List.mem_cons, h.marked, isUsed_lay (h.used ▸ hItem)]
  constructor
  · rintro (rfl | ⟨hx, hUsed⟩)
    · exact ⟨hItem, Or.inl rfl⟩
    · exact ⟨hx, Or.inr hUsed⟩
  · rintro ⟨hx, rfl | hUsed⟩
    · exact Or.inl rfl
    · exact Or.inr ⟨hx, hUsed⟩

/-- Every item laid in the first mosaic lies there in the second. -/
def Extends (m m' : Mosaic) : Prop :=
  ∀ i item : Nat, m.slots[i]? = some (some item) → m'.slots[i]? = some (some item)

theorem Extends.refl (m : Mosaic) : Extends m m := fun _ _ h => h

theorem Extends.trans {m₁ m₂ m₃ : Mosaic} (h : Extends m₁ m₂) (h' : Extends m₂ m₃) :
    Extends m₁ m₃ := fun i item hSlot => h' i item (h i item hSlot)

theorem extends_lay (hHole : m.IsHole i) : Extends m (m.lay i item) := by
  intro k other hSlot
  have hApart : i ≠ k := by
    rintro rfl
    exact nomatch hHole.symm.trans hSlot
  unfold Mosaic.lay
  rw [Array.getElem?_setIfInBounds_ne hApart]
  exact hSlot

theorem getElem?_lay (hHole : m.IsHole i) : (m.lay i item).slots[i]? = some (some item) :=
  Array.getElem?_setIfInBounds_self_of_lt (Array.getElem?_eq_some_iff.mp hHole).1

-- ---------------------------------------------------------------------------
-- Filled mosaics
-- ---------------------------------------------------------------------------

theorem mem_unused (h : Coherent n m) :
    item ∈ m.unused.toList ↔ item < n ∧ m.isUsed item = false := by
  simp [unused, h.used]

/-- Together, the items laid and the unused ones are all there are. -/
theorem laid_append_unused_perm (h : Coherent n m) :
    (m.laid ++ m.unused.toList).Perm (List.range n) := by
  have hUnused : m.unused.toList.Nodup := by
    unfold unused
    rw [Array.toList_filter, Array.toList_range]
    exact List.nodup_range.filter _
  refine (List.perm_ext_iff_of_nodup ?_ List.nodup_range).mpr fun item => ?_
  · refine List.nodup_append.mpr ⟨h.distinct, hUnused, fun x hx y hy hEq => ?_⟩
    have hUsed := ((h.marked x).mp hx).2
    rw [hEq, ((mem_unused h).mp hy).2] at hUsed
    exact Bool.false_ne_true hUsed
  · rw [List.mem_append, h.marked, mem_unused h, List.mem_range]
    cases m.isUsed item <;> simp

/-- **The unused items are as many as the holes.** -/
theorem count_holes (h : Coherent n m) : m.slots.toList.count none = m.unused.size := by
  have hLength := (laid_append_unused_perm h).length_eq
  rw [List.length_append, List.length_range] at hLength
  have hSlots : m.laid.length + m.slots.toList.count none = n :=
    (length_reduceOption_add_count _).trans (Array.length_toList.trans h.slots)
  have hUnused : m.unused.toList.length = m.unused.size := Array.length_toList
  omega

/-- Filled with the unused items the mosaic is a bijection. -/
theorem isPermutation_fill (h : Coherent n m) {items : List Nat}
    (hItems : items.Perm m.unused.toList) :
    Filled m.slots.toList items (fill m.slots.toList items) ∧
      (fill m.slots.toList items).Perm (List.range n) := by
  have hFilled : Filled m.slots.toList items (fill m.slots.toList items) := by
    refine filled_fill ?_
    rw [hItems.length_eq, count_holes h, Array.length_toList]
  have hAll : (m.laid ++ items).Perm (m.laid ++ m.unused.toList) := hItems.append_left m.laid
  exact ⟨hFilled, hFilled.perm.trans (hAll.trans (laid_append_unused_perm h))⟩

-- ---------------------------------------------------------------------------
-- Agreed items
-- ---------------------------------------------------------------------------

/-- Lays what the items of some positions agree on. -/
def layAgreed (pairs : List (Nat × Nat × Nat)) (m : Mosaic) : Mosaic :=
  pairs.foldl (fun m (i, x, y) => if x = y then m.lay i x else m) m

/-- What the items of some positions agree on is laid, and their other positions are holes. -/
structure Agreed (n : Nat) (pairs : List (Nat × Nat × Nat)) (m : Mosaic) : Prop where
  coherent : Coherent n m
  same : ∀ t ∈ pairs, t.2.1 = t.2.2 → m.slots[t.1]? = some (some t.2.1)
  holes : ∀ t ∈ pairs, t.2.1 ≠ t.2.2 → m.IsHole t.1

/-- Agreed items come into holes, one for each position. Nothing that was laid is moved, and holes
at other positions stay. -/
theorem agreed_layAgreed {pairs : List (Nat × Nat × Nat)} (h : Coherent n m)
    (hPositions : (pairs.map (·.1)).Nodup) (hItems : (pairs.map (·.2.1)).Nodup)
    (hOpen : ∀ t ∈ pairs, m.IsHole t.1 ∧ t.2.1 < n ∧ m.isUsed t.2.1 = false) :
    Agreed n pairs (layAgreed pairs m) ∧ Extends m (layAgreed pairs m) ∧
      ∀ k, m.IsHole k → k ∉ pairs.map (·.1) → (layAgreed pairs m).IsHole k := by
  -- on the positions to come, from any mosaic that is open at them
  induction pairs generalizing m with
  | nil => exact ⟨⟨h, nofun, nofun⟩, .refl m, fun _ hHole _ => hHole⟩
  | cons t rest ih =>
    obtain ⟨i, x, y⟩ := t
    obtain ⟨hPosition, hPositions⟩ := List.nodup_cons.mp hPositions
    obtain ⟨hItem, hItems⟩ := List.nodup_cons.mp hItems
    obtain ⟨⟨hHole, hLess, hUnused⟩, hOpen⟩ := List.forall_mem_cons.mp hOpen
    unfold layAgreed
    rw [List.foldl_cons]
    dsimp only
    split
    · next hSame =>
      -- the other positions stay holes, and their items unused
      have hStill : ∀ u ∈ rest,
          (m.lay i x).IsHole u.1 ∧ u.2.1 < n ∧ (m.lay i x).isUsed u.2.1 = false := by
        intro u hu
        obtain ⟨hHoleU, hLessU, hUnusedU⟩ := hOpen u hu
        have hApart : u.1 ≠ i := fun hEq => hPosition (List.mem_map.mpr ⟨u, hu, hEq⟩)
        refine ⟨isHole_lay hHoleU hApart, hLessU, Bool.eq_false_iff.mpr fun hUsed => ?_⟩
        rcases (isUsed_lay (h.used ▸ hLess)).mp hUsed with hEq | hBefore
        · exact hItem (List.mem_map.mpr ⟨u, hu, hEq⟩)
        · exact Bool.false_ne_true (hUnusedU.symm.trans hBefore)
      obtain ⟨hNext, hExtends, hHoles⟩ :=
        ih (h.lay hHole hLess hUnused) hPositions hItems hStill
      refine ⟨⟨hNext.coherent, ?_, ?_⟩, (extends_lay hHole).trans hExtends, ?_⟩
      · exact List.forall_mem_cons.mpr ⟨fun _ => hExtends i x (getElem?_lay hHole), hNext.same⟩
      · exact List.forall_mem_cons.mpr ⟨fun hDiffer => absurd hSame hDiffer, hNext.holes⟩
      · intro k hk hNot
        obtain ⟨hki, hRest⟩ := List.ne_and_not_mem_of_not_mem_cons hNot
        exact hHoles k (isHole_lay hk hki) hRest
    · next hDiffer =>
      obtain ⟨hNext, hExtends, hHoles⟩ := ih h hPositions hItems hOpen
      refine ⟨⟨hNext.coherent, ?_, ?_⟩, hExtends, ?_⟩
      · exact List.forall_mem_cons.mpr ⟨fun hSame => absurd hSame hDiffer, hNext.same⟩
      · exact List.forall_mem_cons.mpr ⟨fun _ => hHoles i hHole hPosition, hNext.holes⟩
      · exact fun k hk hNot => hHoles k hk (List.ne_and_not_mem_of_not_mem_cons hNot).2

/-- What the parents agree on is laid, and nothing else is. `pairs` are positions with two items
each. -/
theorem agreed_agreement {pairs : List (Nat × Nat × Nat)}
    (hPositions : (pairs.map (·.1)).Nodup) (hItems : (pairs.map (·.2.1)).Nodup)
    (hRange : ∀ t ∈ pairs, t.1 < n ∧ t.2.1 < n) : Agreed n pairs (agreement n pairs) := by
  refine (agreed_layAgreed (coherent_blank n) hPositions hItems fun t ht => ?_).1
  refine ⟨isHole_blank (hRange t ht).1, (hRange t ht).2, ?_⟩
  simp [isUsed, blank, Array.getD_eq_getD_getElem?, (hRange t ht).2]

-- ---------------------------------------------------------------------------
-- Chosen items
-- ---------------------------------------------------------------------------

/-- A position has one of two items, unless both are laid. -/
def Served (m : Mosaic) (i x y : Nat) : Prop :=
  m.slots[i]? = some (some x) ∨ m.slots[i]? = some (some y) ∨
    (∃ j : Nat, m.slots[j]? = some (some x)) ∧ ∃ k : Nat, m.slots[k]? = some (some y)

theorem Served.symm (h : Served m i x y) : Served m i y x := by
  obtain hx | hy | ⟨hx, hy⟩ := h
  · exact Or.inr (Or.inl hx)
  · exact Or.inl hy
  · exact Or.inr (Or.inr ⟨hy, hx⟩)

theorem Served.mono {m' : Mosaic} (h : Served m i x y) (hExtends : Extends m m') :
    Served m' i x y := by
  obtain hx | hy | ⟨⟨j, hj⟩, ⟨k, hk⟩⟩ := h
  · exact Or.inl (hExtends i x hx)
  · exact Or.inr (Or.inl (hExtends i y hy))
  · exact Or.inr (Or.inr ⟨⟨j, hExtends j x hj⟩, ⟨k, hExtends k y hk⟩⟩)

/-- One of two items is laid if one of them is unused. -/
theorem Coherent.layEither (h : Coherent n m) (hHole : m.IsHole i) (hx : x < n) (hy : y < n) :
    Coherent n (m.layEither i x y) ∧ Extends m (m.layEither i x y) ∧
      Served (m.layEither i x y) i x y := by
  unfold Mosaic.layEither
  split
  · next hUnused =>
    exact ⟨h.lay hHole hx ((Bool.not_eq_true' _).mp hUnused), extends_lay hHole,
      Or.inl (getElem?_lay hHole)⟩
  · next hUsedX =>
    split
    · next hUnused =>
      exact ⟨h.lay hHole hy ((Bool.not_eq_true' _).mp hUnused), extends_lay hHole,
        Or.inr (Or.inl (getElem?_lay hHole))⟩
    · next hUsedY =>
      -- a used item has been laid somewhere
      have hLaid : ∀ item, item < n → ¬ (!m.isUsed item) = true → item ∈ m.laid := by
        intro item hItem hUsed
        exact (h.marked item).mpr ⟨hItem, by simpa using hUsed⟩
      exact ⟨h, .refl m,
        Or.inr (Or.inr ⟨mem_laid.mp (hLaid x hx hUsedX), mem_laid.mp (hLaid y hy hUsedY)⟩)⟩

theorem isHole_layEither {k : Nat} (h : m.IsHole k) (hApart : k ≠ i) :
    (m.layEither i x y).IsHole k := by
  unfold layEither
  split
  · exact isHole_lay h hApart
  · split
    · exact isHole_lay h hApart
    · exact h

variable {ρ : Type} [RandomSource ρ]

/-- The coin only says which item comes first. -/
theorem choose_cons (i : Nat) (rest : List (Nat × Nat × Nat)) (m : Mosaic) (r : ρ)
    (hDiffer : x ≠ y) :
    ∃ a b r', (a = x ∧ b = y ∨ a = y ∧ b = x) ∧
      choose ((i, x, y) :: rest) m r = choose rest (m.layEither i a b) r' := by
  rw [choose, if_neg hDiffer]
  cases hCoin : Random.coin r with
  | mk heads r' =>
    cases heads with
    | true => exact ⟨x, y, r', Or.inl ⟨rfl, rfl⟩, rfl⟩
    | false => exact ⟨y, x, r', Or.inr ⟨rfl, rfl⟩, rfl⟩

/-- **Where the parents differ**, whatever is laid comes into a hole, and every position ends up
with the item of a parent unless both are laid. -/
theorem coherent_choose {pairs : List (Nat × Nat × Nat)} {r : ρ} (h : Coherent n m)
    (hPositions : (pairs.map (·.1)).Nodup) (hItems : ∀ t ∈ pairs, t.2.1 < n ∧ t.2.2 < n)
    (hHoles : ∀ t ∈ pairs, t.2.1 ≠ t.2.2 → m.IsHole t.1) :
    Coherent n (choose pairs m r).1 ∧ Extends m (choose pairs m r).1 ∧
      ∀ t ∈ pairs, t.2.1 ≠ t.2.2 → Served (choose pairs m r).1 t.1 t.2.1 t.2.2 := by
  -- on the positions to come; what is laid later does not move what was laid before
  induction pairs generalizing m r with
  | nil => exact ⟨h, .refl m, nofun⟩
  | cons t rest ih =>
    obtain ⟨i, x, y⟩ := t
    obtain ⟨hPosition, hPositions⟩ := List.nodup_cons.mp hPositions
    obtain ⟨⟨hx, hy⟩, hItems⟩ := List.forall_mem_cons.mp hItems
    obtain ⟨hHere, hHoles⟩ := List.forall_mem_cons.mp hHoles
    by_cases hSame : x = y
    · have hNext : choose ((i, x, y) :: rest) m r = choose rest m r := by
        rw [choose, if_pos hSame]
      rw [hNext]
      obtain ⟨hCoherent, hExtends, hServed⟩ := ih (r := r) h hPositions hItems hHoles
      exact ⟨hCoherent, hExtends,
        List.forall_mem_cons.mpr ⟨fun hDiffer => absurd hSame hDiffer, hServed⟩⟩
    · obtain ⟨a, b, r', hOrder, hNext⟩ := choose_cons i rest m r hSame
      have hab : a < n ∧ b < n := by
        rcases hOrder with ⟨rfl, rfl⟩ | ⟨rfl, rfl⟩
        · exact ⟨hx, hy⟩
        · exact ⟨hy, hx⟩
      obtain ⟨hLaid, hFirst, hNow⟩ := h.layEither (hHere hSame) hab.1 hab.2
      -- laying an item at this position leaves the holes at the others
      have hStill : ∀ u ∈ rest, u.2.1 ≠ u.2.2 → (m.layEither i a b).IsHole u.1 := by
        intro u hu hDiffer
        have hApart : u.1 ≠ i := fun hEq => hPosition (List.mem_map.mpr ⟨u, hu, hEq⟩)
        exact isHole_layEither (hHoles u hu hDiffer) hApart
      obtain ⟨hCoherent, hExtends, hServed⟩ := ih (r := r') hLaid hPositions hItems hStill
      rw [hNext]
      refine ⟨hCoherent, hFirst.trans hExtends, List.forall_mem_cons.mpr ⟨fun _ => ?_, hServed⟩⟩
      rcases hOrder with ⟨rfl, rfl⟩ | ⟨rfl, rfl⟩
      · exact hNow.mono hExtends
      · exact hNow.symm.mono hExtends

end Mosaic

-- ---------------------------------------------------------------------------
-- Parents
-- ---------------------------------------------------------------------------

theorem map_sideBySide {first second : Permutation} (hSize : first.size = second.size) :
    (sideBySide first second).map (·.1) = List.range first.size ∧
      (sideBySide first second).map (·.2.1) = first.toList := by
  have hLength : first.toList.length = second.toList.length := hSize
  have hZip : (first.toList.zip second.toList).length = first.size := by
    rw [List.length_zip, ← hLength, Nat.min_self]
    rfl
  unfold sideBySide
  rw [List.map_map, List.map_map]
  constructor
  · rw [List.range_eq_range', ← hZip]
    exact List.zipIdx_map_snd 0 _
  · calc ((first.toList.zip second.toList).zipIdx.map fun t => t.1.1)
        = ((first.toList.zip second.toList).zipIdx.map Prod.fst).map Prod.fst :=
          (List.map_map ..).symm
      _ = first.toList := by
        rw [List.zipIdx_map_fst, List.map_fst_zip (Nat.le_of_eq hLength)]

variable {first second : Permutation} {i x y : Nat}

theorem mem_sideBySide : (i, x, y) ∈ sideBySide first second ↔
    first.values[i]? = some x ∧ second.values[i]? = some y := by
  unfold sideBySide
  rw [List.mem_map]
  constructor
  · rintro ⟨⟨⟨x', y'⟩, i'⟩, hMem, hEq⟩
    obtain ⟨rfl, rfl, rfl⟩ : i' = i ∧ x' = x ∧ y' = y := by simpa using hEq
    have hZip := List.mk_mem_zipIdx_iff_getElem?.mp hMem
    simpa [List.getElem?_zip_eq_some, Permutation.toList] using hZip
  · intro h
    refine ⟨((x, y), i), List.mk_mem_zipIdx_iff_getElem?.mpr ?_, rfl⟩
    simpa [List.getElem?_zip_eq_some, Permutation.toList] using h

variable {ρ : Type} [RandomSource ρ]

/-- The mosaic just before its holes are filled. -/
def laidOut (first second : Permutation) (r : ρ) : Mosaic × ρ :=
  Mosaic.choose (sideBySide first second)
    (Mosaic.agreement first.size (sideBySide first second)) r

/-- The items that come into the holes, in their random order. -/
def fillers (first second : Permutation) (r : ρ) : List Nat × ρ :=
  let (mosaic, r) := laidOut first second r
  let (items, r) := Random.shuffle mosaic.unused r
  (items.toList, r)

theorem fillers_perm (first second : Permutation) (r : ρ) :
    (fillers first second r).1.Perm (laidOut first second r).1.unused.toList := by
  unfold fillers
  dsimp only
  exact Random.shuffle_perm (laidOut first second r).1.unused (laidOut first second r).2

/-- The child is checked only once it is filled. -/
theorem uniform_eq (hSize : first.size = second.size) (r : ρ) :
    uniform first second r = (Permutation.ofOperator (Mosaic.fill
      (laidOut first second r).1.slots.toList (fillers first second r).1).toArray).map
        fun child => (child, (fillers first second r).2) := by
  unfold uniform fillers laidOut
  rw [if_neg (not_not_intro hSize)]
  dsimp only
  generalize Permutation.ofOperator _ = checked
  cases checked with
  | error breach => rfl
  | ok child => rfl

/-- A mosaic that takes after two parents. -/
structure Inherits (first second : Permutation) (m : Mosaic) : Prop where
  coherent : m.Coherent first.size
  agreed : ∀ i x : Nat, first.values[i]? = some x → second.values[i]? = some x →
    m.slots[i]? = some (some x)
  served : ∀ i x y : Nat, first.values[i]? = some x → second.values[i]? = some y → m.Served i x y

theorem inherits_laidOut (hSize : first.size = second.size) (r : ρ) :
    Inherits first second (laidOut first second r).1 := by
  obtain ⟨hPositions, hFirst⟩ := map_sideBySide hSize
  have hRange : ∀ t ∈ sideBySide first second,
      t.1 < first.size ∧ t.2.1 < first.size ∧ t.2.2 < first.size := by
    rintro ⟨i, x, y⟩ ht
    obtain ⟨hx, hy⟩ := mem_sideBySide.mp ht
    exact ⟨Permutation.position_lt hx, Permutation.item_lt hx, hSize ▸ Permutation.item_lt hy⟩
  have hDistinct : ((sideBySide first second).map (·.1)).Nodup := hPositions ▸ List.nodup_range
  -- first the agreed items are laid, then the others chosen around them
  have hAgreement := Mosaic.agreed_agreement hDistinct (hFirst ▸ first.isPermutation.2)
    fun t ht => ⟨(hRange t ht).1, (hRange t ht).2.1⟩
  obtain ⟨hCoherent, hExtends, hServed⟩ := Mosaic.coherent_choose (r := r) hAgreement.coherent
    hDistinct (fun t ht => (hRange t ht).2) hAgreement.holes
  have hAgreed : ∀ i x : Nat, first.values[i]? = some x → second.values[i]? = some x →
      (laidOut first second r).1.slots[i]? = some (some x) := by
    intro i x hx hy
    exact hExtends i x (hAgreement.same (i, x, x) (mem_sideBySide.mpr ⟨hx, hy⟩) rfl)
  refine ⟨hCoherent, hAgreed, fun i x y hx hy => ?_⟩
  by_cases hSame : x = y
  · subst hSame
    exact Or.inl (hAgreed i x hx hy)
  · exact hServed (i, x, y) (mem_sideBySide.mpr ⟨hx, hy⟩) hSame

/-- **The uniform child** of two parents of one size is a bijection: its mosaic, filled. -/
theorem uniform_succeeds (hSize : first.size = second.size) (r : ρ) :
    ∃ child r', uniform first second r = .ok (child, r') ∧ child.size = first.size ∧
      Filled (laidOut first second r).1.slots.toList (fillers first second r).1 child.toList := by
  obtain ⟨hFilled, hPerm⟩ := Mosaic.isPermutation_fill (inherits_laidOut hSize r).coherent
    (fillers_perm first second r)
  refine ⟨⟨_, isPermutation_of_perm hPerm⟩, (fillers first second r).2, ?_,
    hPerm.length_eq.trans List.length_range, hFilled⟩
  rw [uniform_eq hSize, Permutation.ofOperator_of_isPermutation (isPermutation_of_perm hPerm)]
  rfl

/-- **Where the items come from.** Two parents of one size have a uniform child, whatever the
random source. It agrees with them where they agree. Elsewhere it has the item of one of them,
unless both items lay at other positions before the holes were filled. The unused items are as many
as the holes, so each comes into one hole, and no hole is left without. -/
theorem uniform_inherits (hSize : first.size = second.size) (r : ρ) :
    ∃ (child : Permutation) (r' : ρ) (m : Mosaic) (items : List Nat),
      uniform first second r = .ok (child, r') ∧ child.size = first.size ∧
      (laidOut first second r).1 = m ∧ m.slots.toList.count none = m.unused.size ∧
      items.Perm m.unused.toList ∧ Filled m.slots.toList items child.toList ∧
      (∀ i x : Nat, first.values[i]? = some x → second.values[i]? = some x →
        child.values[i]? = some x) ∧
      ∀ i x y : Nat, first.values[i]? = some x → second.values[i]? = some y →
        child.values[i]? = some x ∨ child.values[i]? = some y ∨
        (∃ j, j ≠ i ∧ m.slots[j]? = some (some x)) ∧ ∃ k, k ≠ i ∧ m.slots[k]? = some (some y) := by
  obtain ⟨child, r', hMade, hChild, hFilled⟩ := uniform_succeeds hSize r
  have hInherits := inherits_laidOut hSize r
  -- filling the holes leaves the laid items where they are
  have hKept : ∀ i item : Nat, (laidOut first second r).1.slots[i]? = some (some item) →
      child.values[i]? = some item := by
    intro i item hSlot
    rw [← Array.getElem?_toList]
    exact hFilled.getElem? (Array.getElem?_toList ▸ hSlot)
  refine ⟨child, r', (laidOut first second r).1, (fillers first second r).1, hMade, hChild, rfl,
    Mosaic.count_holes hInherits.coherent, fillers_perm first second r, hFilled,
    fun i x hx hy => hKept i x (hInherits.agreed i x hx hy), fun i x y hx hy => ?_⟩
  -- both items laid, and if one of them lies here the child has it
  obtain hFirst | hSecond | ⟨⟨j, hj⟩, ⟨k, hk⟩⟩ := hInherits.served i x y hx hy
  · exact Or.inl (hKept i x hFirst)
  · exact Or.inr (Or.inl (hKept i y hSecond))
  · by_cases hji : j = i
    · exact Or.inl (hKept i x (hji ▸ hj))
    · by_cases hki : k = i
      · exact Or.inr (Or.inl (hKept i y (hki ▸ hk)))
      · exact Or.inr (Or.inr ⟨⟨j, hji, hj⟩, ⟨k, hki, hk⟩⟩)

def firstOfFour : Permutation := ⟨#[0, 1, 2, 3], by decide, by decide⟩

def secondOfFour : Permutation := ⟨#[1, 2, 0, 3], by decide, by decide⟩

/-- At the third position both items are laid when its turn comes, so it gets the one unused
item. -/
theorem uniform_inherits_one_hole :
    firstOfFour.size = secondOfFour.size ∧
    ∃ child r', uniform firstOfFour secondOfFour (⟨3⟩ : Random.SplitMix) = .ok (child, r') ∧
      (laidOut firstOfFour secondOfFour (⟨3⟩ : Random.SplitMix)).1.slots.toList =
        [some 0, some 2, none, some 3] ∧
      Filled [some 0, some 2, none, some 3] [1] child.toList ∧
      firstOfFour.values[3]? = some 3 ∧ secondOfFour.values[3]? = some 3 ∧
      child.values[3]? = some 3 := by
  have hSize : firstOfFour.size = secondOfFour.size := rfl
  obtain ⟨child, r', m, items, hMade, -, hMosaic, -, hItems, hFilled, hAgreed, -⟩ :=
    uniform_inherits hSize (⟨3⟩ : Random.SplitMix)
  have hSlots : (laidOut firstOfFour secondOfFour (⟨3⟩ : Random.SplitMix)).1.slots.toList =
      [some 0, some 2, none, some 3] := by decide +kernel
  have hUnused : (laidOut firstOfFour secondOfFour (⟨3⟩ : Random.SplitMix)).1.unused.toList =
      [1] := by decide +kernel
  rw [← hMosaic, hUnused, List.perm_singleton] at hItems
  rw [← hMosaic, hSlots, hItems] at hFilled
  exact ⟨hSize, child, r', hMade, hSlots, hFilled, rfl, rfl, hAgreed 3 3 rfl rfl⟩

end SwapSearch.Crossover
