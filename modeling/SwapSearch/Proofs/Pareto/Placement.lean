import SwapSearch.Proofs.Pareto.Forest

/-!
# SwapSearch — placing into a region forest

A slot goes into the bucket of its region. A bucket that grows past the capacity
becomes a branch: one of its slots turns into the pivot, and the others are sorted
into buckets by their region relative to it.

The split looks for redundant slots and drops them. There are none, since the
entries of a forest form an antichain together with the newcomer
(`splitBucket_of_antichain`); so a placement adds its slot and loses nothing.

## Results

* `arranged_bucketsOf`       — buckets made from groups are arranged.
* `splitBucket_of_antichain` — a split loses no entry.
* `placed_place`             — a placement adds its slot and keeps everything else.
-/

namespace SwapSearch.Pareto

variable {α : Type}

-- ---------------------------------------------------------------------------
-- Groups
-- ---------------------------------------------------------------------------

/-- Groups in descending order of their regions, each with slots of its own region only. -/
structure Grouped (key : List α → Nat) (groups : List (Nat × List (Slot α))) : Prop where
  descending : groups.Pairwise fun a b => b.1 < a.1
  own : ∀ g ∈ groups, ∀ s ∈ g.2, key s.vector = g.1

theorem region_of_mem_addToGroup {m : Nat} {s : Slot α} {groups : List (Nat × List (Slot α))}
    {g : Nat × List (Slot α)} (h : g ∈ addToGroup m s groups) :
    g.1 = m ∨ ∃ g' ∈ groups, g'.1 = g.1 := by
  induction groups with
  | nil =>
    obtain rfl : g = (m, [s]) := by simpa [addToGroup] using h
    exact Or.inl rfl
  | cons head rest ih =>
    obtain ⟨m', group⟩ := head
    rw [addToGroup] at h
    split at h
    · rcases List.mem_cons.mp h with rfl | h
      · exact Or.inr ⟨_, List.mem_cons_self .., rfl⟩
      · exact Or.inr ⟨g, List.mem_cons_of_mem _ h, rfl⟩
    · split at h
      · rcases List.mem_cons.mp h with rfl | h
        · exact Or.inl rfl
        · exact Or.inr ⟨g, h, rfl⟩
      · rcases List.mem_cons.mp h with rfl | h
        · exact Or.inr ⟨_, List.mem_cons_self .., rfl⟩
        · rcases ih h with hNew | ⟨g', hMem, hEq⟩
          · exact Or.inl hNew
          · exact Or.inr ⟨g', List.mem_cons_of_mem _ hMem, hEq⟩

theorem Grouped.addToGroup {key : List α → Nat} {m : Nat} {s : Slot α}
    {groups : List (Nat × List (Slot α))} (h : Grouped key groups) (hs : key s.vector = m) :
    Grouped key (addToGroup m s groups) := by
  have hOne : ∀ t ∈ [s], key t.vector = m := by simpa using hs
  -- the groups descend, so the place of a region is the first that is not above it
  induction groups with
  | nil => exact ⟨List.pairwise_singleton _ _, by simpa [Pareto.addToGroup] using hs⟩
  | cons head rest ih =>
    obtain ⟨m', group⟩ := head
    obtain ⟨hDescending, hOwn⟩ := h
    obtain ⟨hBelow, hRest⟩ := List.pairwise_cons.mp hDescending
    obtain ⟨hHead, hTail⟩ := List.forall_mem_cons.mp hOwn
    rw [Pareto.addToGroup]
    split
    · next hm =>
      refine ⟨List.pairwise_cons.mpr ⟨hBelow, hRest⟩, List.forall_mem_cons.mpr ⟨?_, hTail⟩⟩
      exact List.forall_mem_append.mpr ⟨hHead, hm ▸ hOne⟩
    · next hm =>
      split
      · next hLt =>
        refine ⟨List.pairwise_cons.mpr ⟨fun g hg => ?_, hDescending⟩,
          List.forall_mem_cons.mpr ⟨hOne, hOwn⟩⟩
        rcases List.mem_cons.mp hg with rfl | hg
        · exact hLt
        · exact Nat.lt_trans (hBelow g hg) hLt
      · next hLt =>
        have hLater := ih ⟨hRest, hTail⟩
        refine ⟨List.pairwise_cons.mpr ⟨fun g hg => ?_, hLater.descending⟩,
          List.forall_mem_cons.mpr ⟨hHead, hLater.own⟩⟩
        -- behind the head stand its own successors and at most the new region
        rcases region_of_mem_addToGroup hg with hNew | ⟨g', hMem, hEq⟩
        · simp only
          omega
        · rw [← hEq]
          exact hBelow g' hMem

theorem addToGroup_perm (m : Nat) (s : Slot α) (groups : List (Nat × List (Slot α))) :
    ((addToGroup m s groups).flatMap (·.2)).Perm (s :: groups.flatMap (·.2)) := by
  induction groups with
  | nil => exact List.Perm.refl _
  | cons head rest ih =>
    obtain ⟨m', group⟩ := head
    rw [addToGroup]
    split
    · rw [List.flatMap_cons, List.flatMap_cons]
      simp
    · split
      · exact List.Perm.refl _
      · rw [List.flatMap_cons, List.flatMap_cons]
        exact (ih.append_left group).trans List.perm_middle

/-- Sorting slots into groups loses none. -/
theorem foldl_addToGroup (key : List α → Nat) (slots : List (Slot α))
    {groups : List (Nat × List (Slot α))} (h : Grouped key groups) :
    Grouped key (slots.foldl (fun groups s => addToGroup (key s.vector) s groups) groups) ∧
      ((slots.foldl (fun groups s => addToGroup (key s.vector) s groups) groups).flatMap
        (·.2)).Perm (slots ++ groups.flatMap (·.2)) := by
  induction slots generalizing groups with
  | nil => exact ⟨h, List.Perm.refl _⟩
  | cons s slots ih =>
    obtain ⟨hGrouped, hPerm⟩ := ih (h.addToGroup (s := s) rfl)
    refine ⟨hGrouped, hPerm.trans ?_⟩
    exact ((addToGroup_perm _ s groups).append_left slots).trans List.perm_middle

-- ---------------------------------------------------------------------------
-- Buckets
-- ---------------------------------------------------------------------------

theorem stored_bucketsOf (groups : List (Nat × List (Slot α))) (n : Nat) (f : Forest α) :
    (bucketsOf groups n f).1.stored.Perm
      ((groups.flatMap (·.2)).map (·.toEntry) ++ f.stored) := by
  induction groups generalizing n f with
  | nil => exact List.Perm.refl _
  | cons head rest ih =>
    obtain ⟨m, group⟩ := head
    refine (ih (n + 1) (.leaf m n group f)).trans ?_
    rw [Forest.stored_leaf, List.flatMap_cons, List.map_append, List.append_assoc]
    exact List.perm_append_comm_assoc _ _ _

theorem mem_vectors_bucketsOf {groups : List (Nat × List (Slot α))} {n : Nat} {f : Forest α}
    {v : List α} (h : v ∈ (bucketsOf groups n f).1.vectors) :
    (∃ s ∈ groups.flatMap (·.2), s.vector = v) ∨ v ∈ f.vectors := by
  induction groups generalizing n f with
  | nil => exact Or.inr h
  | cons head rest ih =>
    obtain ⟨m, group⟩ := head
    rw [List.flatMap_cons]
    rcases ih h with ⟨s, hs, hv⟩ | hv
    · exact Or.inl ⟨s, List.mem_append_right _ hs, hv⟩
    · rw [Forest.vectors, List.mem_append] at hv
      rcases hv with hv | hv
      · obtain ⟨s, hs, hEq⟩ := List.mem_map.mp hv
        exact Or.inl ⟨s, List.mem_append_left _ hs, hEq⟩
      · exact Or.inr hv

variable [Scalar α]

/-- Buckets made from groups are arranged, in front of a forest that lies above them. -/
theorem arranged_bucketsOf {key : List α → Nat} {groups : List (Nat × List (Slot α))} (n : Nat)
    {f : Forest α} (hGrouped : Grouped key groups) (hArranged : Forest.Arranged key f)
    (hAbove : ∀ g ∈ groups, ∀ r ∈ f.regions, g.1 < r) :
    Forest.Arranged key (bucketsOf groups n f).1 := by
  induction groups generalizing n f with
  | nil => exact hArranged
  | cons head rest ih =>
    obtain ⟨m, group⟩ := head
    obtain ⟨hDescending, hOwn⟩ := hGrouped
    obtain ⟨hBelow, hRest⟩ := List.pairwise_cons.mp hDescending
    obtain ⟨hHead, hTail⟩ := List.forall_mem_cons.mp hOwn
    obtain ⟨hAboveHead, hAboveTail⟩ := List.forall_mem_cons.mp hAbove
    refine ih (n + 1) ⟨hRest, hTail⟩ ⟨hHead, hAboveHead, hArranged⟩ fun g hg r hr => ?_
    rcases List.mem_cons.mp hr with rfl | hr
    · exact hBelow g hg
    · exact hAboveTail g hg r hr

-- ---------------------------------------------------------------------------
-- Splitting
-- ---------------------------------------------------------------------------

/-- No entry weakly dominates another. -/
def Antichain (entries : List (Entry α)) : Prop :=
  entries.Pairwise fun x y => Incomparable x.vector y.vector

theorem Antichain.perm {a b : List (Entry α)} (h : Antichain a) (hPerm : a.Perm b) :
    Antichain b :=
  List.Pairwise.perm h hPerm fun hxy => hxy.symm

theorem rotateLast_perm {β : Type} (l : List β) : (l.getLast?.toList ++ l.dropLast).Perm l := by
  cases hLast : l.getLast? with
  | none =>
    obtain rfl : l = [] := List.getLast?_eq_none_iff.mp hLast
    exact List.Perm.refl _
  | some x =>
    obtain ⟨front, rfl⟩ := List.getLast?_eq_some_iff.mp hLast
    rw [List.dropLast_concat]
    exact List.perm_append_comm

omit [Scalar α] in
/-- A split sorts the slots beside the pivot into groups. The last of them comes first. -/
theorem grouped_others (key : List α → Nat) {others : List (Slot α)}
    {groups : List (Nat × List (Slot α))}
    (h : (others.getLast?.toList ++ others.dropLast).foldl
      (fun groups s => addToGroup (key s.vector) s groups) [] = groups) :
    Grouped key groups ∧ (groups.flatMap (·.2)).Perm others := by
  have hEmpty : Grouped key ([] : List (Nat × List (Slot α))) :=
    ⟨List.Pairwise.nil, fun _ hg => nomatch hg⟩
  obtain ⟨hGrouped, hPerm⟩ :=
    foldl_addToGroup key (others.getLast?.toList ++ others.dropLast) hEmpty
  rw [h, List.flatMap_nil, List.append_nil] at hPerm
  rw [h] at hGrouped
  exact ⟨hGrouped, hPerm.trans (rotateLast_perm others)⟩

/-- A split drops nothing of an antichain. It makes one slot the pivot and sorts the others
below it. -/
theorem splitBucket_of_antichain [OrderedScalar α] {d : Nat} (m own serial : Nat)
    {slots : List (Slot α)} (rest : Forest α) (hNonempty : slots ≠ [])
    (hPoints : ∀ s ∈ slots, IsPoint d s.vector)
    (hAntichain : Antichain (slots.map (·.toEntry))) :
    ∃ pivot children serial',
      splitBucket m own serial slots rest = ⟨.branch m own pivot true children rest, serial', []⟩ ∧
      (pivot.toEntry :: children.stored).Perm (slots.map (·.toEntry)) ∧
      (∀ v ∈ pivot.vector :: children.vectors, ∃ s ∈ slots, s.vector = v) ∧
      Forest.Arranged (region pivot.vector) children := by
  unfold Antichain at hAntichain
  rw [List.pairwise_map] at hAntichain
  -- no slot supersedes another, so all of them are kept
  obtain ⟨hKept, hRemoved⟩ :=
    selectPivot_of_incomparable (fun s : Slot α => s.vector) hPoints hAntichain
  unfold splitBucket
  revert hKept hRemoved
  generalize selectPivot (fun s : Slot α => s.vector) slots = selected
  obtain ⟨kept, removed⟩ := selected
  rintro (hKept : kept.Perm slots) (rfl : removed = [])
  cases kept with
  | nil => exact absurd (List.nil_perm.mp hKept) hNonempty
  | cons pivot others =>
    dsimp only
    generalize hGroups : (others.getLast?.toList ++ others.dropLast).foldl
      (fun groups s => addToGroup (region pivot.vector s.vector) s groups) [] = groups
    obtain ⟨hGrouped, hOthers⟩ := grouped_others (region pivot.vector) hGroups
    refine ⟨pivot, _, _, rfl, ?_, fun v hv => ?_,
      arranged_bucketsOf _ hGrouped trivial fun _ _ _ hr => nomatch hr⟩
    · have hStored := stored_bucketsOf groups serial .nil
      rw [Forest.stored_nil, List.append_nil] at hStored
      exact ((hStored.trans (hOthers.map _)).cons _).trans (hKept.map Slot.toEntry)
    · rcases List.mem_cons.mp hv with rfl | hv
      · exact ⟨pivot, hKept.mem_iff.mp (List.mem_cons_self ..), rfl⟩
      · rcases mem_vectors_bucketsOf hv with ⟨s, hs, hEq⟩ | hNone
        · have hMem : s ∈ others := hOthers.mem_iff.mp hs
          exact ⟨s, hKept.mem_iff.mp (List.mem_cons_of_mem _ hMem), hEq⟩
        · exact nomatch hNone

-- ---------------------------------------------------------------------------
-- Placing
-- ---------------------------------------------------------------------------

namespace Forest

/-- The slot has been added to the forest, and nothing is lost. -/
structure Placed (key : List α → Nat) (slot : Slot α) (f : Forest α) (p : Placement α) :
    Prop where
  dropped : p.dropped = []
  stored : p.forest.stored.Perm (slot.toEntry :: f.stored)
  vectors : ∀ v ∈ p.forest.vectors, v = slot.vector ∨ v ∈ f.vectors
  regions : ∀ r ∈ p.forest.regions, r = key slot.vector ∨ r ∈ f.regions
  arranged : Arranged key p.forest

/-- A new bucket in front of the forest. -/
theorem placed_front {key : List α → Nat} {slot : Slot α} {f : Forest α} {q : Nat} (n n' : Nat)
    (hq : key slot.vector = q) (hArranged : Arranged key f) (hAbove : ∀ r ∈ f.regions, q < r) :
    Placed key slot f ⟨leaf q n [slot] f, n', []⟩ where
  dropped := rfl
  stored := List.Perm.refl _
  vectors v hv := by
    rcases List.mem_cons.mp hv with hv | hv
    · exact Or.inl hv
    · exact Or.inr hv
  regions r hr := by
    rcases List.mem_cons.mp hr with hr | hr
    · exact Or.inl (hr.trans hq.symm)
    · exact Or.inr hr
  arranged := ⟨by simpa using hq, hAbove, hArranged⟩

/-- The slot goes behind a bucket. -/
theorem Placed.behindLeaf {key : List α → Nat} {slot : Slot α} {rest : Forest α}
    {p : Placement α} {m n : Nat} {slots : List (Slot α)} (h : Placed key slot rest p)
    (hArranged : Arranged key (leaf m n slots rest)) (hLt : m < key slot.vector) :
    Placed key slot (leaf m n slots rest) { p with forest := leaf m n slots p.forest } := by
  obtain ⟨hSlots, hAbove, -⟩ := hArranged
  refine ⟨h.dropped, (h.stored.append_left _).trans List.perm_middle, fun v hv => ?_,
    fun r hr => ?_, hSlots, fun r hr => ?_, h.arranged⟩
  · rw [Forest.vectors, List.mem_append] at hv ⊢
    rcases hv with hv | hv
    · exact Or.inr (Or.inl hv)
    · exact (h.vectors v hv).imp_right Or.inr
  · rw [Forest.regions, List.mem_cons] at hr ⊢
    rcases hr with hr | hr
    · exact Or.inr (Or.inl hr)
    · exact (h.regions r hr).imp_right Or.inr
  · rcases h.regions r hr with rfl | hr
    · exact hLt
    · exact hAbove r hr

section Branch

variable {key : List α → Nat} {slot pivot : Slot α} {children rest : Forest α} {p : Placement α}
  {m n : Nat} {live : Bool}

/-- The slot goes behind a branch. -/
theorem Placed.behindBranch (h : Placed key slot rest p)
    (hArranged : Arranged key (branch m n pivot live children rest))
    (hLt : m < key slot.vector) :
    Placed key slot (branch m n pivot live children rest)
      { p with forest := branch m n pivot live children p.forest } := by
  obtain ⟨hHere, hChildren, hAbove, -⟩ := hArranged
  refine ⟨h.dropped, ?_, fun v hv => ?_, fun r hr => ?_, hHere, hChildren, fun r hr => ?_,
    h.arranged⟩
  · rw [stored_branch, stored_branch, ← List.append_assoc, ← List.append_assoc]
    exact (h.stored.append_left _).trans List.perm_middle
  · rw [Forest.vectors, List.mem_cons, List.mem_append] at hv ⊢
    rcases hv with hv | hv | hv
    · exact Or.inr (Or.inl hv)
    · exact Or.inr (Or.inr (Or.inl hv))
    · exact (h.vectors v hv).imp_right fun hv => Or.inr (Or.inr hv)
  · rw [Forest.regions, List.mem_cons] at hr ⊢
    rcases hr with hr | hr
    · exact Or.inr (Or.inl hr)
    · exact (h.regions r hr).imp_right Or.inr
  · -- the new region is beyond the branch, the others were before
    rcases h.regions r hr with rfl | hr
    · exact hLt
    · exact hAbove r hr

/-- The slot goes below a branch. -/
theorem Placed.below (h : Placed (region pivot.vector) slot children p)
    (hArranged : Arranged key (branch m n pivot live children rest)) (hm : key slot.vector = m) :
    Placed key slot (branch m n pivot live children rest)
      { p with forest := branch m n pivot live p.forest rest } := by
  obtain ⟨⟨hPivot, hBelow⟩, -, hAbove, hRest⟩ := hArranged
  refine ⟨h.dropped, ?_, fun v hv => ?_, fun r hr => Or.inr hr, ⟨hPivot, fun v hv => ?_⟩,
    h.arranged, hAbove, hRest⟩
  · rw [stored_branch, stored_branch]
    exact ((h.stored.append_right _).append_left _).trans List.perm_middle
  · rw [Forest.vectors, List.mem_cons, List.mem_append] at hv ⊢
    rcases hv with hv | hv | hv
    · exact Or.inr (Or.inl hv)
    · exact (h.vectors v hv).imp_right fun hv => Or.inr (Or.inl hv)
    · exact Or.inr (Or.inr (Or.inr hv))
  · rcases h.vectors v hv with rfl | hv
    · exact hm
    · exact hBelow v hv

end Branch

section Bucket

variable {d m : Nat} {key : List α → Nat} {slot : Slot α} {slots : List (Slot α)}
  {rest : Forest α} {own : Nat}

omit [Scalar α] in
theorem toEntry_append_perm (slots : List (Slot α)) (slot : Slot α) :
    ((slots ++ [slot]).map (·.toEntry)).Perm (slot.toEntry :: slots.map (·.toEntry)) := by
  rw [List.map_append]
  exact List.perm_append_comm

omit [Scalar α] in
theorem vector_of_mem_append {s : Slot α} (hs : s ∈ slots ++ [slot]) :
    s.vector = slot.vector ∨ s.vector ∈ (leaf m own slots rest).vectors := by
  rcases List.mem_append.mp hs with hs | hs
  · exact Or.inr (List.mem_append_left _ (List.mem_map.mpr ⟨s, hs, rfl⟩))
  · exact Or.inl (congrArg (·.vector) (List.mem_singleton.mp hs))

/-- All slots of the bucket have its region. -/
theorem Arranged.key_of_mem_append (h : Arranged key (leaf m own slots rest))
    (hm : key slot.vector = m) : ∀ s ∈ slots ++ [slot], key s.vector = m :=
  List.forall_mem_append.mpr ⟨h.1, by simpa using hm⟩

/-- The slot joins the bucket of its region. -/
theorem placed_append (serial : Nat) (hArranged : Arranged key (leaf m own slots rest))
    (hm : key slot.vector = m) :
    Placed key slot (leaf m own slots rest)
      ⟨leaf m own (slots ++ [slot]) rest, serial, []⟩ := by
  have hKey := hArranged.key_of_mem_append hm
  obtain ⟨-, hAbove, hRest⟩ := hArranged
  refine ⟨rfl, ?_, fun v hv => ?_, fun r hr => Or.inr hr, hKey, hAbove, hRest⟩
  · rw [stored_leaf, stored_leaf]
    exact (toEntry_append_perm slots slot).append_right _
  · rw [Forest.vectors, List.mem_append] at hv
    rcases hv with hv | hv
    · obtain ⟨s, hs, rfl⟩ := List.mem_map.mp hv
      exact vector_of_mem_append hs
    · exact Or.inr (List.mem_append_right _ hv)

variable [OrderedScalar α]

/-- The slot joins the bucket of its region, which is then split. -/
theorem placed_splitBucket (serial : Nat) (hArranged : Arranged key (leaf m own slots rest))
    (hm : key slot.vector = m) (hPoints : ∀ v ∈ (leaf m own slots rest).vectors, IsPoint d v)
    (hPoint : IsPoint d slot.vector)
    (hAntichain : Antichain (slot.toEntry :: (leaf m own slots rest).stored)) :
    Placed key slot (leaf m own slots rest)
      (splitBucket m own serial (slots ++ [slot]) rest) := by
  -- the slots that are split are the old ones and the newcomer
  have hPerm := toEntry_append_perm slots slot
  have hPointsAll : ∀ s ∈ slots ++ [slot], IsPoint d s.vector := by
    intro s hs
    rcases vector_of_mem_append hs with hv | hv
    · exact hv ▸ hPoint
    · exact hPoints _ hv
  have hAntichainAll : Antichain ((slots ++ [slot]).map (·.toEntry)) := by
    refine Antichain.perm (List.Pairwise.sublist ?_ hAntichain) hPerm.symm
    exact (List.sublist_append_left _ _).cons_cons _
  obtain ⟨pivot, children, serial', hSplit, hStored, hOld, hChildren⟩ :=
    splitBucket_of_antichain m own serial rest (by simp) hPointsAll hAntichainAll
  -- all of them lie in the region of the bucket
  have hBelow : ∀ v ∈ pivot.vector :: children.vectors, key v = m := by
    intro v hv
    obtain ⟨s, hs, rfl⟩ := hOld v hv
    exact hArranged.key_of_mem_append hm s hs
  obtain ⟨-, hAbove, hRest⟩ := hArranged
  rw [hSplit]
  refine ⟨rfl, ?_, fun v hv => ?_, fun r hr => Or.inr hr, List.forall_mem_cons.mp hBelow,
    hChildren, hAbove, hRest⟩
  · rw [stored_branch, stored_leaf, if_pos rfl]
    exact (hStored.trans hPerm).append_right _
  · rw [Forest.vectors, ← List.cons_append, List.mem_append] at hv
    rcases hv with hv | hv
    · obtain ⟨s, hs, rfl⟩ := hOld v hv
      exact vector_of_mem_append hs
    · exact Or.inr (List.mem_append_right _ hv)

/-- The slot joins the bucket of its region, which is split when it is overfull. -/
theorem placed_bucket (capacity serial : Nat)
    (hArranged : Arranged key (leaf m own slots rest)) (hm : key slot.vector = m)
    (hPoints : ∀ v ∈ (leaf m own slots rest).vectors, IsPoint d v)
    (hPoint : IsPoint d slot.vector)
    (hAntichain : Antichain (slot.toEntry :: (leaf m own slots rest).stored)) :
    Placed key slot (leaf m own slots rest)
      (if capacity < (slots ++ [slot]).length then
        splitBucket m own serial (slots ++ [slot]) rest
      else ⟨leaf m own (slots ++ [slot]) rest, serial, []⟩) := by
  split
  · exact placed_splitBucket serial hArranged hm hPoints hPoint hAntichain
  · exact placed_append serial hArranged hm

end Bucket

/-- A placement adds its slot and keeps everything else. -/
theorem placed_place [OrderedScalar α] {d q : Nat} {key : List α → Nat} (capacity serial : Nat)
    {slot : Slot α} {f : Forest α} (hArranged : Arranged key f) (hq : key slot.vector = q)
    (hPoints : ∀ v ∈ f.vectors, IsPoint d v) (hPoint : IsPoint d slot.vector)
    (hAntichain : Antichain (slot.toEntry :: f.stored)) :
    Placed key slot f (place capacity slot q serial f) := by
  -- along the siblings in the order of their regions, and down where the region is the same
  induction f generalizing key q with
  | nil => exact placed_front _ _ hq trivial fun _ hr => nomatch hr
  | leaf m own slots rest ih =>
    have hArrangedRest : Arranged key rest := hArranged.2.2
    have hAbove : ∀ r ∈ rest.regions, m < r := hArranged.2.1
    rw [place]
    split
    · next hm =>
      exact placed_bucket capacity serial hArranged (hq.trans hm.symm) hPoints hPoint
        hAntichain
    · split
      · next hLt =>
        refine placed_front _ _ hq hArranged (List.forall_mem_cons.mpr ⟨hLt, ?_⟩)
        exact fun r hr => Nat.lt_trans hLt (hAbove r hr)
      · next hm hLt =>
        refine (ih hArrangedRest hq ?_ ?_).behindLeaf hArranged (by omega)
        · exact fun v hv => hPoints v (List.mem_append_right _ hv)
        · exact List.Pairwise.sublist ((List.sublist_append_right _ _).cons_cons _) hAntichain
  | branch m own pivot live children rest ihChildren ihRest =>
    obtain ⟨-, hArrangedChildren, hAbove, hArrangedRest⟩ := id hArranged
    rw [stored_branch] at hAntichain
    rw [place]
    split
    · next hm =>
      refine (ihChildren hArrangedChildren rfl ?_ ?_).below hArranged (hq.trans hm.symm)
      · exact fun v hv => hPoints v (List.mem_cons_of_mem _ (List.mem_append_left _ hv))
      · have hSub := (List.sublist_append_left children.stored rest.stored).trans
          (List.sublist_append_right (if live then [pivot.toEntry] else []) _)
        exact List.Pairwise.sublist (hSub.cons_cons _) hAntichain
    · split
      · next hLt =>
        refine placed_front _ _ hq hArranged (List.forall_mem_cons.mpr ⟨hLt, ?_⟩)
        exact fun r hr => Nat.lt_trans hLt (hAbove r hr)
      · next hm hLt =>
        refine (ihRest hArrangedRest hq ?_ ?_).behindBranch hArranged (by omega)
        · exact fun v hv => hPoints v (List.mem_cons_of_mem _ (List.mem_append_right _ hv))
        · have hSub := (List.sublist_append_right children.stored rest.stored).trans
            (List.sublist_append_right (if live then [pivot.toEntry] else []) _)
          exact List.Pairwise.sublist (hSub.cons_cons _) hAntichain

end Forest

end SwapSearch.Pareto
