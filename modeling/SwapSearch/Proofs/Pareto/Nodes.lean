import SwapSearch.Proofs.Pareto.Placement
import SwapSearch.Proofs.Pareto.Removal

/-!
# SwapSearch — the nodes of a region forest

Every node of a forest has a serial. Covering, evicting and detaching keep all nodes
where they are, and no bucket grows (`Thinned`). Only a placement creates nodes. It
numbers them from the next free serial on (`Grown`), and a bucket that it fills past
the capacity is split.

## Results

* `Similar.thinned`, `thinned_evict`, `thinned_detach` — what keeps the nodes.
* `grown_place` — what a placement does to them.
-/

namespace SwapSearch.Pareto.Forest

variable {α : Type}

-- ---------------------------------------------------------------------------
-- Nodes
-- ---------------------------------------------------------------------------

/-- The serials of all nodes, each before what lies below it and beside it. -/
def serials : Forest α → List Nat
  | nil => []
  | leaf _ n _ rest => n :: serials rest
  | branch _ n _ _ children rest => n :: (serials children ++ serials rest)

/-- The serial of the first tree. -/
def head? (f : Forest α) : Option Nat := f.serials.head?

/-- The slots of every bucket. -/
def buckets : Forest α → List (List (Slot α))
  | nil => []
  | leaf _ _ slots rest => slots :: buckets rest
  | branch _ _ _ _ children rest => buckets children ++ buckets rest

/-- No bucket is overfull. -/
def Fits (capacity : Nat) (f : Forest α) : Prop := ∀ slots ∈ f.buckets, slots.length ≤ capacity

theorem fits_leaf {capacity m n : Nat} {slots : List (Slot α)} {rest : Forest α} :
    (leaf m n slots rest).Fits capacity ↔ slots.length ≤ capacity ∧ rest.Fits capacity :=
  List.forall_mem_cons

theorem fits_branch {capacity m n : Nat} {pivot : Slot α} {live : Bool}
    {children rest : Forest α} :
    (branch m n pivot live children rest).Fits capacity ↔
      children.Fits capacity ∧ rest.Fits capacity :=
  List.forall_mem_append

-- ---------------------------------------------------------------------------
-- Keeping the nodes
-- ---------------------------------------------------------------------------

/-- The same tree of nodes. No bucket has grown, and pivots may have stopped being live. -/
inductive Thinned : Forest α → Forest α → Prop
  | nil : Thinned .nil .nil
  | leaf {m n : Nat} {slots slots' : List (Slot α)} {rest rest' : Forest α}
      (hSlots : slots'.length ≤ slots.length) (hRest : Thinned rest rest') :
      Thinned (.leaf m n slots rest) (.leaf m n slots' rest')
  | branch {m n : Nat} {pivot : Slot α} {live live' : Bool}
      {children children' rest rest' : Forest α}
      (hChildren : Thinned children children') (hRest : Thinned rest rest') :
      Thinned (.branch m n pivot live children rest) (.branch m n pivot live' children' rest')

namespace Thinned

variable {f f' f'' : Forest α}

theorem refl (f : Forest α) : Thinned f f := by
  induction f with
  | nil => exact .nil
  | leaf m n slots rest ih => exact .leaf (Nat.le_refl _) ih
  | branch m n pivot live children rest ihChildren ihRest => exact .branch ihChildren ihRest

theorem serials_eq (h : Thinned f f') : f'.serials = f.serials := by
  induction h with
  | nil => rfl
  | leaf _ _ ih => rw [serials, serials, ih]
  | branch _ _ ihChildren ihRest => rw [serials, serials, ihChildren, ihRest]

theorem head?_eq (h : Thinned f f') : f'.head? = f.head? := by
  rw [head?, head?, h.serials_eq]

theorem regions_eq (h : Thinned f f') : f'.regions = f.regions := by
  induction h with
  | nil => rfl
  | leaf _ _ ih => rw [regions, regions, ih]
  | branch _ _ _ ih => rw [regions, regions, ih]

theorem fits {capacity : Nat} (h : Thinned f f') (hFits : f.Fits capacity) :
    f'.Fits capacity := by
  induction h with
  | nil => exact hFits
  | leaf hSlots _ ih =>
    obtain ⟨hHere, hRest⟩ := fits_leaf.mp hFits
    exact fits_leaf.mpr ⟨Nat.le_trans hSlots hHere, ih hRest⟩
  | branch _ _ ihChildren ihRest =>
    obtain ⟨hChildren, hRest⟩ := fits_branch.mp hFits
    exact fits_branch.mpr ⟨ihChildren hChildren, ihRest hRest⟩

end Thinned

/-- Reordering and crediting slots keeps the nodes. -/
theorem Similar.thinned {f f' : Forest α} (h : Similar f f') : Thinned f f' := by
  induction h with
  | nil => exact .nil
  | leaf hSlots _ ih => exact .leaf (by simpa using Nat.le_of_eq hSlots.length_eq) ih
  | branch _ _ ihChildren ihRest => exact .branch ihChildren ihRest

variable [Scalar α]

theorem length_evictSlots_le (point : List α) (own : Bool) (slots : List (Slot α))
    (e : Eviction α) : (evictSlots point own slots e).1.length ≤ slots.length := by
  induction slots generalizing e with
  | nil => exact Nat.le_refl _
  | cons s rest ih =>
    rw [evictSlots]
    split
    · split
      · exact Nat.succ_le_succ (ih _)
      · exact Nat.le_succ_of_le (ih _)
    · exact Nat.succ_le_succ (ih _)

/-- An eviction keeps the nodes. -/
theorem thinned_evict (q : Nat) (point : List α) (own : Bool) (f : Forest α) (e : Eviction α) :
    Thinned f (evict q point own f e).1 := by
  induction f generalizing q own e with
  | nil => exact .nil
  | leaf m n slots rest ih =>
    rw [evict_leaf]
    refine .leaf ?_ (ih _ _ _)
    unfold evictBucket
    split
    · exact length_evictSlots_le point _ slots e
    · exact Nat.le_refl _
  | branch m n pivot live children rest ihChildren ihRest =>
    by_cases hInside : isSubregion q m = true
    · rw [evict_branch_inside hInside]
      exact .branch (ihChildren _ _ _) (ihRest _ _ _)
    · rw [evict_branch_outside hInside]
      exact .branch (.refl children) (ihRest _ _ _)

/-- A detachment keeps the nodes. -/
theorem thinned_detach (solution : Permutation) (vector : List α) (q : Nat) (f : Forest α) :
    Thinned f (detach solution vector q f) := by
  induction f generalizing q with
  | nil => exact .nil
  | leaf m n slots rest ih =>
    rw [detach]
    split
    · exact .leaf (List.length_filter_le _ _) (.refl rest)
    · exact .leaf (Nat.le_refl _) (ih q)
  | branch m n pivot live children rest ihChildren ihRest =>
    rw [detach]
    split
    · split
      · exact .branch (.refl children) (.refl rest)
      · exact .branch (ihChildren _) (.refl rest)
    · exact .branch (.refl children) (ihRest q)

-- ---------------------------------------------------------------------------
-- Creating nodes
-- ---------------------------------------------------------------------------

/-- New nodes have the free serials from `serial` on, and no bucket is overfull. -/
structure Grown (capacity serial : Nat) (f : Forest α) (p : Placement α) : Prop where
  serials : ∃ created, p.serial = serial + created ∧
    p.forest.serials.Perm (List.range' serial created ++ f.serials)
  fits : p.forest.Fits capacity

omit [Scalar α] in
theorem buckets_bucketsOf (groups : List (Nat × List (Slot α))) (serial : Nat) (f : Forest α) :
    (bucketsOf groups serial f).2 = serial + groups.length ∧
      (bucketsOf groups serial f).1.serials.Perm
        (List.range' serial groups.length ++ f.serials) ∧
      ∀ slots ∈ (bucketsOf groups serial f).1.buckets,
        (∃ g ∈ groups, g.2 = slots) ∨ slots ∈ f.buckets := by
  induction groups generalizing serial f with
  | nil => exact ⟨rfl, List.Perm.refl _, fun _ h => Or.inr h⟩
  | cons head rest ih =>
    obtain ⟨m, group⟩ := head
    obtain ⟨hSerial, hSerials, hBuckets⟩ := ih (serial + 1) (.leaf m serial group f)
    refine ⟨?_, hSerials.trans List.perm_middle, fun slots hSlots => ?_⟩
    · rw [bucketsOf, hSerial, List.length_cons]
      omega
    · rcases hBuckets slots hSlots with ⟨g, hg, hEq⟩ | hSlots
      · exact Or.inl ⟨g, List.mem_cons_of_mem _ hg, hEq⟩
      · rcases List.mem_cons.mp hSlots with rfl | hSlots
        · exact Or.inl ⟨_, List.mem_cons_self .., rfl⟩
        · exact Or.inr hSlots

omit [Scalar α] in
/-- No group of a split has more slots than there are beside the pivot. -/
theorem length_group_le {key : List α → Nat} {others : List (Slot α)}
    {groups : List (Nat × List (Slot α))} {capacity : Nat}
    (h : (others.getLast?.toList ++ others.dropLast).foldl
      (fun groups s => addToGroup (key s.vector) s groups) [] = groups)
    (hOthers : others.length ≤ capacity) : ∀ g ∈ groups, g.2.length ≤ capacity := by
  intro g hg
  obtain ⟨-, hPerm⟩ := grouped_others key h
  obtain ⟨before, after, rfl⟩ := List.append_of_mem hg
  have hLength := hPerm.length_eq
  simp only [List.flatMap_append, List.flatMap_cons, List.length_append] at hLength
  omega

theorem length_selectPivot_le (slots : List (Slot α)) :
    (selectPivot (fun s : Slot α => s.vector) slots).1.length ≤ slots.length := by
  unfold selectPivot
  rw [List.partition_eq_filter_filter, (exchangeFirst_perm _ _).length_eq, List.length_map]
  exact Nat.le_trans (List.length_filter_le _ _) (Nat.le_of_eq List.length_zipIdx)

/-- A split leaves the node where it is and creates its children. Of `capacity + 1` slots one
becomes the pivot, so the others fit into any bucket. -/
theorem grown_splitBucket {capacity : Nat} (m own serial : Nat) {before slots : List (Slot α)}
    {rest : Forest α} (hSlots : slots.length ≤ capacity + 1) (hRest : rest.Fits capacity) :
    Grown capacity serial (leaf m own before rest) (splitBucket m own serial slots rest) := by
  -- the front of the slots is no longer than the slots
  have hKept := Nat.le_trans (length_selectPivot_le slots) hSlots
  unfold splitBucket
  revert hKept
  generalize selectPivot (fun s : Slot α => s.vector) slots = selected
  obtain ⟨kept, removed⟩ := selected
  intro hKept
  cases kept with
  | nil =>
    exact ⟨⟨0, rfl, List.Perm.refl _⟩, fits_leaf.mpr ⟨Nat.zero_le _, hRest⟩⟩
  | cons pivot others =>
    dsimp only
    generalize hGroups : (others.getLast?.toList ++ others.dropLast).foldl
      (fun groups s => addToGroup (region pivot.vector s.vector) s groups) [] = groups
    -- one slot has become the pivot, so a group has at most as many as a bucket holds
    have hFits := length_group_le hGroups (Nat.le_of_succ_le_succ hKept)
    -- one node is created for each group
    obtain ⟨hSerial, hSerials, hBuckets⟩ := buckets_bucketsOf groups serial (.nil : Forest α)
    refine ⟨⟨groups.length, hSerial, ?_⟩, fits_branch.mpr ⟨fun b hb => ?_, hRest⟩⟩
    · rw [Forest.serials, List.append_nil] at hSerials
      exact ((hSerials.append_right rest.serials).cons own).trans List.perm_middle.symm
    · rcases hBuckets b hb with ⟨g, hg, rfl⟩ | hNone
      · exact hFits g hg
      · exact nomatch hNone

omit [Scalar α] in
/-- A bucket of the newcomer alone. -/
theorem grown_front {capacity : Nat} (hCapacity : 1 ≤ capacity) (q serial : Nat) (slot : Slot α)
    {f : Forest α} (hFits : f.Fits capacity) :
    Grown capacity serial f ⟨leaf q serial [slot] f, serial + 1, []⟩ :=
  ⟨⟨1, rfl, List.Perm.refl _⟩, fits_leaf.mpr ⟨hCapacity, hFits⟩⟩

/-- A placement numbers the nodes it creates consecutively and leaves no bucket overfull. -/
theorem grown_place {capacity : Nat} (hCapacity : 1 ≤ capacity) (slot : Slot α) (q serial : Nat)
    {f : Forest α} (hFits : f.Fits capacity) :
    Grown capacity serial f (place capacity slot q serial f) := by
  -- along the siblings and down the children of the region; new numbers come in front
  induction f generalizing q with
  | nil => exact grown_front hCapacity q serial slot hFits
  | leaf m own slots rest ih =>
    obtain ⟨hHere, hRest⟩ := fits_leaf.mp hFits
    rw [place]
    dsimp only
    split
    · split
      · have hLength : (slots ++ [slot]).length ≤ capacity + 1 := by
          rw [List.length_append]
          exact Nat.succ_le_succ hHere
        exact grown_splitBucket m own serial hLength hRest
      · next hRoom =>
        exact ⟨⟨0, rfl, List.Perm.refl _⟩, fits_leaf.mpr ⟨Nat.le_of_not_lt hRoom, hRest⟩⟩
    · split
      · exact grown_front hCapacity q serial slot hFits
      · obtain ⟨⟨created, hSerial, hSerials⟩, hFitsRest⟩ := ih q hRest
        exact ⟨⟨created, hSerial, (hSerials.cons own).trans List.perm_middle.symm⟩,
          fits_leaf.mpr ⟨hHere, hFitsRest⟩⟩
  | branch m own pivot live children rest ihChildren ihRest =>
    obtain ⟨hChildren, hRest⟩ := fits_branch.mp hFits
    rw [place]
    split
    · obtain ⟨⟨created, hSerial, hSerials⟩, hFitsChildren⟩ :=
        ihChildren (region pivot.vector slot.vector) hChildren
      refine ⟨⟨created, hSerial, ?_⟩, fits_branch.mpr ⟨hFitsChildren, hRest⟩⟩
      have hBelow := (hSerials.append_right rest.serials).cons own
      rw [List.append_assoc] at hBelow
      exact hBelow.trans List.perm_middle.symm
    · split
      · exact grown_front hCapacity q serial slot hFits
      · obtain ⟨⟨created, hSerial, hSerials⟩, hFitsRest⟩ := ihRest q hRest
        refine ⟨⟨created, hSerial, ?_⟩, fits_branch.mpr ⟨hChildren, hFitsRest⟩⟩
        have hBeside := (hSerials.append_left children.serials).trans
          (List.perm_append_comm_assoc _ _ _)
        exact (hBeside.cons own).trans List.perm_middle.symm

/-- A split keeps the region and the serial of the node. -/
theorem root_splitBucket (m own serial : Nat) (slots : List (Slot α)) (rest : Forest α) :
    (splitBucket m own serial slots rest).forest.regions = m :: rest.regions ∧
      (splitBucket m own serial slots rest).forest.head? = some own := by
  unfold splitBucket
  generalize selectPivot (fun s : Slot α => s.vector) slots = selected
  obtain ⟨kept, removed⟩ := selected
  cases kept with
  | nil => exact ⟨rfl, rfl⟩
  | cons pivot others => exact ⟨rfl, rfl⟩

/-- A placement into the one tree at the top leaves its first node in place. -/
theorem root_place (capacity : Nat) (slot : Slot α) (serial : Nat) {f : Forest α} {m : Nat}
    (h : f.regions = [m]) :
    (place capacity slot m serial f).forest.regions = [m] ∧
      (place capacity slot m serial f).forest.head? = f.head? := by
  cases f with
  | nil => exact absurd h (by simp [regions])
  | leaf k own slots rest =>
    obtain ⟨rfl, hRest⟩ := List.cons.inj h
    rw [place, if_pos rfl]
    dsimp only
    split
    · have hSplit := root_splitBucket k own serial (slots ++ [slot]) rest
      rwa [hRest] at hSplit
    · exact ⟨h, rfl⟩
  | branch k own pivot live children rest =>
    obtain ⟨rfl, -⟩ := List.cons.inj h
    rw [place, if_pos rfl]
    exact ⟨h, rfl⟩

end SwapSearch.Pareto.Forest
