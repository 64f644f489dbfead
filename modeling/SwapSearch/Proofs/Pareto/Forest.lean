import SwapSearch.Pareto.Forest
import SwapSearch.Proofs.Pareto.Dominance

/-!
# SwapSearch — what a region forest holds

A forest is read through two views: `stored`, the live entries, and `vectors`, every
vector that a slot or a pivot carries, live or not. The invariant behind the
pruning is `Arranged`: the regions of a forest ascend, and whatever a tree carries
lies in the tree's region. It speaks of pivots that are no longer live as well,
because they keep splitting the space.

How a forest computes the region of a vector is its *key*: the region relative to
the pivot above it, and a constant at the top. All that pruning asks of a key is
that better points lie in smaller regions (`IsRegionKey`).

## Results

* `not_covered_of_cover` — a search that finds no cover has missed none.
* `exists_of_cover`      — a search that finds one has found an entry.
* `similar_of_cover`     — a search that finds one only reorders and credits slots.
-/

namespace SwapSearch.Pareto

variable {α : Type}

namespace Forest

-- ---------------------------------------------------------------------------
-- Views
-- ---------------------------------------------------------------------------

/-- The live entries, tree by tree. -/
def stored (f : Forest α) : List (Entry α) := f.nodes.flatMap (·.2)

/-- The vectors of all slots and pivots, live or not. -/
def vectors : Forest α → List (List α)
  | nil => []
  | leaf _ _ slots rest => slots.map (·.vector) ++ vectors rest
  | branch _ _ pivot _ children rest => pivot.vector :: (vectors children ++ vectors rest)

/-- The regions of the trees at the top. -/
def regions : Forest α → List Nat
  | nil => []
  | leaf m _ _ rest => m :: regions rest
  | branch m _ _ _ _ rest => m :: regions rest

@[simp] theorem stored_nil : (nil : Forest α).stored = [] := rfl

@[simp] theorem stored_leaf (m n : Nat) (slots : List (Slot α)) (rest : Forest α) :
    (leaf m n slots rest).stored = slots.map (·.toEntry) ++ rest.stored := rfl

@[simp] theorem stored_branch (m n : Nat) (pivot : Slot α) (live : Bool)
    (children rest : Forest α) :
    (branch m n pivot live children rest).stored =
      (if live then [pivot.toEntry] else []) ++ (children.stored ++ rest.stored) := by
  simp [stored, nodes]

theorem mem_livePivot {pivot : Slot α} {live : Bool} {e : Entry α} :
    e ∈ (if live then [pivot.toEntry] else []) ↔ live = true ∧ e = pivot.toEntry := by
  rw [List.mem_ite_nil_right, List.mem_singleton]

theorem mem_stored_leaf {m n : Nat} {slots : List (Slot α)} {rest : Forest α} {e : Entry α} :
    e ∈ (leaf m n slots rest).stored ↔ (∃ s ∈ slots, s.toEntry = e) ∨ e ∈ rest.stored := by
  rw [stored_leaf, List.mem_append, List.mem_map]

theorem mem_stored_branch {m n : Nat} {pivot : Slot α} {live : Bool} {children rest : Forest α}
    {e : Entry α} :
    e ∈ (branch m n pivot live children rest).stored ↔
      (live = true ∧ e = pivot.toEntry) ∨ e ∈ children.stored ∨ e ∈ rest.stored := by
  rw [stored_branch, List.mem_append, List.mem_append, mem_livePivot]

/-- Listing by the age of the nodes lists what is stored. -/
theorem entries_perm (f : Forest α) : f.entries.Perm f.stored :=
  (List.mergeSort_perm _ _).flatMap_right _

theorem vector_mem_of_stored {f : Forest α} {e : Entry α} (h : e ∈ f.stored) :
    e.vector ∈ f.vectors := by
  induction f with
  | nil => simp at h
  | leaf m n slots rest ih =>
    rw [vectors, List.mem_append]
    rcases mem_stored_leaf.mp h with ⟨s, hs, rfl⟩ | h
    · exact Or.inl (List.mem_map.mpr ⟨s, hs, rfl⟩)
    · exact Or.inr (ih h)
  | branch m n pivot live children rest ihChildren ihRest =>
    rw [vectors, List.mem_cons, List.mem_append]
    rcases mem_stored_branch.mp h with ⟨-, rfl⟩ | h | h
    · exact Or.inl rfl
    · exact Or.inr (Or.inl (ihChildren h))
    · exact Or.inr (Or.inr (ihRest h))

-- ---------------------------------------------------------------------------
-- Reordering
-- ---------------------------------------------------------------------------

/-- Two forests of one shape whose buckets hold the same entries, in any order and with any
hits. -/
inductive Similar : Forest α → Forest α → Prop
  | nil : Similar .nil .nil
  | leaf {m n : Nat} {slots slots' : List (Slot α)} {rest rest' : Forest α}
      (hSlots : (slots'.map (·.toEntry)).Perm (slots.map (·.toEntry)))
      (hRest : Similar rest rest') :
      Similar (.leaf m n slots rest) (.leaf m n slots' rest')
  | branch {m n : Nat} {pivot : Slot α} {live : Bool} {children children' rest rest' : Forest α}
      (hChildren : Similar children children') (hRest : Similar rest rest') :
      Similar (.branch m n pivot live children rest) (.branch m n pivot live children' rest')

theorem Similar.refl (f : Forest α) : Similar f f := by
  induction f with
  | nil => exact .nil
  | leaf m n slots rest ih => exact .leaf (List.Perm.refl _) ih
  | branch m n pivot live children rest ihChildren ihRest => exact .branch ihChildren ihRest

theorem Similar.stored_perm {f f' : Forest α} (h : Similar f f') : f'.stored.Perm f.stored := by
  induction h with
  | nil => exact List.Perm.refl _
  | leaf hSlots _ ih => exact hSlots.append ih
  | branch _ _ ihChildren ihRest =>
    rw [stored_branch, stored_branch]
    exact (ihChildren.append ihRest).append_left _

theorem Similar.vectors_perm {f f' : Forest α} (h : Similar f f') :
    f'.vectors.Perm f.vectors := by
  induction h with
  | nil => exact List.Perm.refl _
  | leaf hSlots _ ih =>
    have hVectors := hSlots.map (·.vector)
    rw [List.map_map, List.map_map] at hVectors
    exact hVectors.append ih
  | branch _ _ ihChildren ihRest => exact (ihChildren.append ihRest).cons _

theorem Similar.regions_eq {f f' : Forest α} (h : Similar f f') : f'.regions = f.regions := by
  induction h with
  | nil => rfl
  | leaf _ _ ih => exact congrArg (_ :: ·) ih
  | branch _ _ _ ih => exact congrArg (_ :: ·) ih

end Forest

-- ---------------------------------------------------------------------------
-- The invariant
-- ---------------------------------------------------------------------------

variable [Scalar α]

/-- Better points lie in smaller regions. -/
def IsRegionKey (d : Nat) (key : List α → Nat) : Prop :=
  ∀ x y, IsPoint d x → IsPoint d y → weaklyDominates x y = true →
    isSubregion (key x) (key y) = true

theorem isRegionKey_region [OrderedScalar α] (d : Nat) (r : List α) :
    IsRegionKey d (region r) := by
  intro x y hx hy h
  exact isSubregion_region hx hy h

theorem isRegionKey_const (d m : Nat) : IsRegionKey (α := α) d fun _ => m := by
  intro _ _ _ _ _
  exact isSubregion_self m

namespace Forest

/-- Regions ascend, and each tree carries only vectors of its own region. -/
def Arranged (key : List α → Nat) : Forest α → Prop
  | nil => True
  | leaf m _ slots rest =>
    (∀ s ∈ slots, key s.vector = m) ∧ (∀ r ∈ rest.regions, m < r) ∧ Arranged key rest
  | branch m _ pivot _ children rest =>
    (key pivot.vector = m ∧ ∀ v ∈ children.vectors, key v = m) ∧
      Arranged (region pivot.vector) children ∧
      (∀ r ∈ rest.regions, m < r) ∧ Arranged key rest

/-- Everything stored in a forest lies in one of its regions. -/
theorem Arranged.key_mem_regions {key : List α → Nat} {f : Forest α} (h : Arranged key f)
    {v : List α} (hv : v ∈ f.vectors) : key v ∈ f.regions := by
  induction f with
  | nil => simp [vectors] at hv
  | leaf m n slots rest ih =>
    obtain ⟨hSlots, -, hRest⟩ := h
    rw [vectors, List.mem_append] at hv
    rw [regions, List.mem_cons]
    rcases hv with hv | hv
    · obtain ⟨s, hs, rfl⟩ := List.mem_map.mp hv
      exact Or.inl (hSlots s hs)
    · exact Or.inr (ih hRest hv)
  | branch m n pivot live children rest _ ih =>
    obtain ⟨⟨hPivot, hChildren⟩, -, -, hRest⟩ := h
    rw [vectors, List.mem_cons, List.mem_append] at hv
    rw [regions, List.mem_cons]
    rcases hv with rfl | hv | hv
    · exact Or.inl hPivot
    · exact Or.inl (hChildren v hv)
    · exact Or.inr (ih hRest hv)

/-- What has the region of the first tree is in no later one. -/
theorem Arranged.not_mem_later {key : List α → Nat} {rest : Forest α} {m : Nat} {e : Entry α}
    (h : Arranged key rest) (hAbove : ∀ r ∈ rest.regions, m < r) (hKey : key e.vector = m) :
    e ∉ rest.stored := by
  intro he
  have hMem : key e.vector ∈ rest.regions := h.key_mem_regions (vector_mem_of_stored he)
  exact absurd (hAbove _ hMem) (by omega)

section Where

variable {key : List α → Nat} {m n : Nat} {slots : List (Slot α)} {pivot : Slot α} {live : Bool}
  {children rest : Forest α} {e : Entry α}

/-- An entry with the region of the first bucket is in it. -/
theorem Arranged.mem_bucket (h : Arranged key (leaf m n slots rest))
    (he : e ∈ (leaf m n slots rest).stored) (hKey : key e.vector = m) :
    e ∈ slots.map (·.toEntry) := by
  obtain ⟨-, hAbove, hRest⟩ := h
  rw [stored_leaf] at he
  exact (List.mem_append.mp he).resolve_right (hRest.not_mem_later hAbove hKey)

/-- An entry with another region is in a later tree. -/
theorem Arranged.mem_behind_bucket (h : Arranged key (leaf m n slots rest))
    (he : e ∈ (leaf m n slots rest).stored) (hKey : key e.vector ≠ m) : e ∈ rest.stored := by
  rw [stored_leaf] at he
  refine (List.mem_append.mp he).resolve_left fun heSlots => ?_
  obtain ⟨s, hs, rfl⟩ := List.mem_map.mp heSlots
  exact hKey (h.1 s hs)

/-- An entry with the region of the first branch is its pivot or below it. -/
theorem Arranged.mem_branch (h : Arranged key (branch m n pivot live children rest))
    (he : e ∈ (branch m n pivot live children rest).stored) (hKey : key e.vector = m) :
    (live = true ∧ e = pivot.toEntry) ∨ e ∈ children.stored := by
  obtain ⟨-, -, hAbove, hRest⟩ := h
  rw [mem_stored_branch, ← or_assoc] at he
  exact he.resolve_right (hRest.not_mem_later hAbove hKey)

theorem Arranged.mem_behind_branch (h : Arranged key (branch m n pivot live children rest))
    (he : e ∈ (branch m n pivot live children rest).stored) (hKey : key e.vector ≠ m) :
    e ∈ rest.stored := by
  obtain ⟨⟨hPivot, hBelow⟩, -⟩ := h
  rcases mem_stored_branch.mp he with ⟨-, rfl⟩ | heChildren | heRest
  · exact absurd hPivot hKey
  · exact absurd (hBelow _ (vector_mem_of_stored heChildren)) hKey
  · exact heRest

end Where

end Forest

-- ---------------------------------------------------------------------------
-- Covering
-- ---------------------------------------------------------------------------

theorem drop_length_takeWhile {β : Type} (p : β → Bool) (l : List β) :
    l.drop (l.takeWhile p).length = l.dropWhile p := by
  induction l with
  | nil => rfl
  | cons x l ih => by_cases h : p x = true <;> simp [h, ih]

/-- A bucket either covers the point by one of its slots, which it credits and may move, or
holds nothing that weakly dominates the point. -/
theorem coverSlots_cases (point : List α) (slots : List (Slot α)) :
    (coverSlots point slots = none ∧ ∀ s ∈ slots, weaklyDominates s.vector point = false) ∨
    ∃ before s after slots', coverSlots point slots = some slots' ∧
      slots = before ++ s :: after ∧ weaklyDominates s.vector point = true ∧
      slots'.Perm (before ++ s.credit :: after) := by
  have hSplit : slots.takeWhile (fun s => !weaklyDominates s.vector point) ++
      slots.dropWhile (fun s => !weaklyDominates s.vector point) = slots :=
    List.takeWhile_append_dropWhile
  -- the slots before the first that covers, and what comes from it on
  have hHead := List.head?_dropWhile_not (fun s => !weaklyDominates s.vector point) slots
  have hBefore : ∀ s ∈ slots.takeWhile (fun s => !weaklyDominates s.vector point),
      weaklyDominates s.vector point = false := fun s hs => by
    simpa using List.all_eq_true.mp List.all_takeWhile s hs
  unfold coverSlots
  simp only [drop_length_takeWhile]
  revert hSplit hHead hBefore
  generalize slots.takeWhile (fun s => !weaklyDominates s.vector point) = before
  cases slots.dropWhile (fun s => !weaklyDominates s.vector point) with
  | nil =>
    intro hSplit _ hBefore
    rw [List.append_nil] at hSplit
    exact Or.inl ⟨rfl, hSplit ▸ hBefore⟩
  | cons s after =>
    intro hSplit hHead _
    have hCovers : weaklyDominates s.vector point = true := by simpa using hHead
    refine Or.inr ⟨before, s, after, ?_⟩
    -- a slot that is hit more often than the one before changes places with it
    cases hLast : before.getLast? with
    | none =>
      obtain rfl : before = [] := List.getLast?_eq_none_iff.mp hLast
      exact ⟨_, rfl, hSplit.symm, hCovers, List.Perm.refl _⟩
    | some last =>
      obtain ⟨front, rfl⟩ := List.getLast?_eq_some_iff.mp hLast
      dsimp only
      split
      · refine ⟨_, rfl, hSplit.symm, hCovers, ?_⟩
        rw [List.dropLast_concat, List.append_assoc]
        exact (List.Perm.swap _ _ _).append_left front
      · exact ⟨_, rfl, hSplit.symm, hCovers, List.Perm.refl _⟩

namespace Forest

theorem Similar.arranged {key : List α → Nat} {f f' : Forest α} (h : Similar f f')
    (hArranged : Arranged key f) : Arranged key f' := by
  induction h generalizing key with
  | nil => trivial
  | @leaf m n slots slots' rest rest' hSlots hRest ih =>
    obtain ⟨hKey, hAbove, hArrangedRest⟩ := hArranged
    refine ⟨fun s hs => ?_, hRest.regions_eq ▸ hAbove, ih hArrangedRest⟩
    have hMem : s.toEntry ∈ slots.map (·.toEntry) :=
      hSlots.mem_iff.mp (List.mem_map.mpr ⟨s, hs, rfl⟩)
    obtain ⟨t, ht, hEq⟩ := List.mem_map.mp hMem
    rw [← hEq]
    exact hKey t ht
  | branch hChildren hRest ihChildren ihRest =>
    obtain ⟨⟨hPivot, hBelow⟩, hArrangedChildren, hAbove, hArrangedRest⟩ := hArranged
    refine ⟨⟨hPivot, fun v hv => hBelow v (hChildren.vectors_perm.mem_iff.mp hv)⟩,
      ihChildren hArrangedChildren, hRest.regions_eq ▸ hAbove, ihRest hArrangedRest⟩

/-- Finding a cover changes nothing but the order and the hits of slots. -/
theorem similar_of_cover {q : Nat} {point : List α} {f f' : Forest α}
    (h : cover q point f = some f') : Similar f f' := by
  -- on the forest; at a bucket the slots are permuted, everywhere else nothing moves
  induction f generalizing q f' with
  | nil => exact absurd h (by simp [cover])
  | leaf m n slots rest ih =>
    rw [cover] at h
    split at h
    · next slots' hSlots =>
      obtain rfl := Option.some.inj h
      split at hSlots
      · rcases coverSlots_cases point slots with
          ⟨hNone, -⟩ | ⟨before, s, after, _, hSome, rfl, -, hPerm⟩
        · exact absurd (hNone.symm.trans hSlots) (by simp)
        · obtain rfl := Option.some.inj (hSome.symm.trans hSlots)
          refine .leaf ?_ (Similar.refl rest)
          simpa [Slot.credit] using hPerm.map (·.toEntry)
      · exact absurd hSlots (by simp)
    · obtain ⟨rest', hRest, rfl⟩ := Option.map_eq_some_iff.mp h
      exact .leaf (List.Perm.refl _) (ih hRest)
  | branch m n pivot live children rest ihChildren ihRest =>
    rw [cover] at h
    split at h
    · split at h
      · obtain rfl := Option.some.inj h
        exact Similar.refl _
      · split at h
        · next children' hChildren =>
          obtain rfl := Option.some.inj h
          exact .branch (ihChildren hChildren) (Similar.refl rest)
        · obtain ⟨rest', hRest, rfl⟩ := Option.map_eq_some_iff.mp h
          exact .branch (Similar.refl children) (ihRest hRest)
    · obtain ⟨rest', hRest, rfl⟩ := Option.map_eq_some_iff.mp h
      exact .branch (Similar.refl children) (ihRest hRest)

/-- A cover is an entry that weakly dominates the point. -/
theorem exists_of_cover {q : Nat} {point : List α} {f f' : Forest α}
    (h : cover q point f = some f') :
    ∃ e ∈ f.stored, weaklyDominates e.vector point = true := by
  induction f generalizing q f' with
  | nil => exact absurd h (by simp [cover])
  | leaf m n slots rest ih =>
    rw [cover] at h
    split at h
    · next slots' hSlots =>
      split at hSlots
      · rcases coverSlots_cases point slots with
          ⟨hNone, -⟩ | ⟨before, s, after, _, -, rfl, hCovers, -⟩
        · exact absurd (hNone.symm.trans hSlots) (by simp)
        · have hs : s ∈ before ++ s :: after := List.mem_append_right _ (List.mem_cons_self ..)
          exact ⟨s.toEntry, mem_stored_leaf.mpr (Or.inl ⟨s, hs, rfl⟩), hCovers⟩
      · exact absurd hSlots (by simp)
    · obtain ⟨rest', hRest, -⟩ := Option.map_eq_some_iff.mp h
      obtain ⟨e, he, hCovers⟩ := ih hRest
      exact ⟨e, mem_stored_leaf.mpr (Or.inr he), hCovers⟩
  | branch m n pivot live children rest ihChildren ihRest =>
    -- three ways lead into the siblings
    have hFromRest : ∀ {rest'}, cover q point rest = some rest' →
        ∃ e ∈ (branch m n pivot live children rest).stored,
          weaklyDominates e.vector point = true := by
      intro rest' hRest
      obtain ⟨e, he, hCovers⟩ := ihRest hRest
      exact ⟨e, mem_stored_branch.mpr (Or.inr (Or.inr he)), hCovers⟩
    rw [cover] at h
    split at h
    · split at h
      · next hPivot =>
        obtain ⟨rfl, hCovers⟩ := Bool.and_eq_true_iff.mp hPivot
        exact ⟨pivot.toEntry, mem_stored_branch.mpr (Or.inl ⟨rfl, rfl⟩), hCovers⟩
      · split at h
        · next children' hChildren =>
          obtain ⟨e, he, hCovers⟩ := ihChildren hChildren
          exact ⟨e, mem_stored_branch.mpr (Or.inr (Or.inl he)), hCovers⟩
        · obtain ⟨rest', hRest, -⟩ := Option.map_eq_some_iff.mp h
          exact hFromRest hRest
    · obtain ⟨rest', hRest, -⟩ := Option.map_eq_some_iff.mp h
      exact hFromRest hRest

/-- Regions that are no subset of the point's own hold nothing that weakly dominates it. -/
theorem not_covered_of_not_isSubregion {d q m : Nat} {key : List α → Nat} {point v : List α}
    (hKey : IsRegionKey d key) (hv : IsPoint d v) (hPoint : IsPoint d point)
    (hq : key point = q) (hm : key v = m) (hSkip : ¬ isSubregion m q = true) :
    weaklyDominates v point = false := by
  cases h : weaklyDominates v point with
  | false => rfl
  | true => exact absurd (hq ▸ hm ▸ hKey v point hv hPoint h) hSkip

/-- A search that finds no cover has missed none. -/
theorem not_covered_of_cover [OrderedScalar α] {d q : Nat} {key : List α → Nat} {point : List α}
    {f : Forest α} (hKey : IsRegionKey d key) (hArranged : Arranged key f)
    (hPoints : ∀ v ∈ f.vectors, IsPoint d v) (hPoint : IsPoint d point) (hq : key point = q)
    (h : cover q point f = none) : ∀ e ∈ f.stored, weaklyDominates e.vector point = false := by
  -- on the forest, each level with the key of its branch: what is skipped cannot cover
  induction f generalizing key q with
  | nil => simp
  | leaf m n slots rest ih =>
    obtain ⟨hSlots, -, hRest⟩ := hArranged
    rw [cover] at h
    split at h
    · exact absurd h (by simp)
    · next hNone =>
      rw [Option.map_eq_none_iff] at h
      intro e he
      rcases mem_stored_leaf.mp he with ⟨s, hs, rfl⟩ | he
      · split at hNone
        · rcases coverSlots_cases point slots with ⟨-, hAll⟩ | ⟨_, _, _, _, hSome, -⟩
          · exact hAll s hs
          · exact absurd (hSome.symm.trans hNone) (by simp)
        · next hSkip =>
          -- the bucket was passed over for its region
          have hv : IsPoint d s.vector :=
            hPoints _ (List.mem_append_left _ (List.mem_map.mpr ⟨s, hs, rfl⟩))
          exact not_covered_of_not_isSubregion hKey hv hPoint hq (hSlots s hs) hSkip
      · exact ih hKey hRest (fun v hv => hPoints v (List.mem_append_right _ hv)) hq h e he
  | branch m n pivot live children rest ihChildren ihRest =>
    obtain ⟨⟨hPivot, hBelow⟩, hChildren, -, hRest⟩ := hArranged
    have hPointsChildren : ∀ v ∈ children.vectors, IsPoint d v := fun v hv =>
      hPoints v (List.mem_cons_of_mem _ (List.mem_append_left _ hv))
    have hPointsRest : ∀ v ∈ rest.vectors, IsPoint d v := fun v hv =>
      hPoints v (List.mem_cons_of_mem _ (List.mem_append_right _ hv))
    intro e he
    rw [mem_stored_branch] at he
    rw [cover] at h
    split at h
    · split at h
      · exact absurd h (by simp)
      · next hPivotFails =>
        split at h
        · exact absurd h (by simp)
        · next hNone =>
          rw [Option.map_eq_none_iff] at h
          rcases he with ⟨rfl, rfl⟩ | he | he
          · simpa using hPivotFails
          · exact ihChildren (isRegionKey_region d _) hChildren hPointsChildren rfl hNone e he
          · exact ihRest hKey hRest hPointsRest hq h e he
    · next hSkip =>
      rw [Option.map_eq_none_iff] at h
      -- the branch was passed over, and with it everything in its region
      have hSkipped : ∀ v, key v = m → IsPoint d v → weaklyDominates v point = false :=
        fun v hm hv => not_covered_of_not_isSubregion hKey hv hPoint hq hm hSkip
      rcases he with ⟨-, rfl⟩ | he | he
      · exact hSkipped _ hPivot (hPoints _ (List.mem_cons_self ..))
      · have hv := vector_mem_of_stored he
        exact hSkipped _ (hBelow _ hv) (hPointsChildren _ hv)
      · exact ihRest hKey hRest hPointsRest hq h e he

end Forest

end SwapSearch.Pareto
