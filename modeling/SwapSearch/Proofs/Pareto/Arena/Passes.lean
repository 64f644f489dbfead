import SwapSearch.Proofs.Pareto.Arena.Spelling

/-!
# SwapSearch — passes over an arena

On an arena that spells a forest, each pass of an insertion does what the pass over the
forest does: it ends, answers alike, and the nodes of the forest spell the forest that
the other pass returns.

A pass is nested once for every node it looks at and once more for every node it goes
below, so twice as many steps as there are nodes suffice.

## Results

* `coverAlong_spelled`, `evictAlong_spelled` — the passes over all children.
* `detach_spelled`                           — the way down to an entry.
-/

namespace SwapSearch.Pareto.Arena

variable {α : Type} [Scalar α] {arena arena' : Arena α} {cursor sibling child : Option Nat}
  {m id : Nat} {slots : List (Slot α)} {pivot : Slot α} {live : Bool}
  {f f' children rest : Forest α}

-- ---------------------------------------------------------------------------
-- Covering
-- ---------------------------------------------------------------------------

/-- A search for a cover from `cursor` on has ended as that in the forest has. -/
inductive Searched (arena : Arena α) (cursor : Option Nat) (f : Forest α) :
    Option (Forest α) → Option (Bool × Arena α) → Prop
  | uncovered : Searched arena cursor f none (some (false, arena))
  | covered {f' : Forest α} {arena' : Arena α} (hSize : arena'.size = arena.size)
      (hRewrites : Rewrites f arena arena' cursor f') :
      Searched arena cursor f (some f') (some (true, arena'))

namespace Searched

variable {found : Option (Forest α)} {result : Option (Bool × Arena α)}

omit [Scalar α] in
theorem behindLeaf (h : Searched arena sibling rest found result)
    (hNode : arena[id]? = some ⟨m, sibling, .leaf slots⟩) (hApart : id ∉ rest.serials) :
    Searched arena (some id) (.leaf m id slots rest) (found.map (.leaf m id slots)) result := by
  cases h with
  | uncovered => exact .uncovered
  | covered hSize hRewrites => exact .covered hSize (hRewrites.behindLeaf hNode hApart)

omit [Scalar α] in
theorem behindBranch (h : Searched arena sibling rest found result)
    (hNode : arena[id]? = some ⟨m, sibling, .branch pivot live child⟩)
    (hChildren : Spells arena child children) (hApart : Forest.Separate id children rest) :
    Searched arena (some id) (.branch m id pivot live children rest)
      (found.map (.branch m id pivot live children)) result := by
  cases h with
  | uncovered => exact .uncovered
  | covered hSize hRewrites =>
    exact .covered hSize (hRewrites.behindBranch hNode hChildren hApart)

end Searched

theorem coverAlong_none (point : List α) (q steps : Nat) :
    coverAlong point q steps arena none = some (false, arena) := by
  cases steps <;> rfl

/-- A search ends, and finds what the search in the forest finds. -/
theorem coverAlong_spelled (point : List α) (q : Nat) {steps : Nat} (h : Spells arena cursor f)
    (hNodup : f.serials.Nodup) (hSteps : 2 * f.serials.length ≤ steps) :
    Searched arena cursor f (f.cover q point) (coverAlong point q steps arena cursor) := by
  -- on the spelling; a node takes two steps, one to come to it and one to go below it
  induction h generalizing q steps with
  | nil =>
    rw [coverAlong_none]
    exact .uncovered
  | @leaf m id sibling slots rest hNode hRest ih =>
    obtain ⟨hApart, hNodup⟩ := Forest.nodup_leaf.mp hNodup
    rw [Forest.serials, List.length_cons] at hSteps
    obtain ⟨steps, rfl⟩ : ∃ k, steps = k + 2 := ⟨steps - 2, by omega⟩
    have hLength : 2 * rest.serials.length ≤ steps + 1 := by omega
    -- if nothing is found here, the search goes on behind the node
    have hLater := (ih q hNodup hLength).behindLeaf hNode hApart
    by_cases hInside : isSubregion m q = true
    · cases hSlots : coverSlots point slots with
      | none => simpa [Forest.cover, coverAlong, cover, hNode, hInside, hSlots] using hLater
      | some slots' =>
        simp only [Forest.cover, coverAlong, cover, hNode, hInside, hSlots, Option.pure_def,
          Option.bind_eq_bind, Option.bind_some, reduceIte]
        exact .covered (by simp) (.bucket hNode hRest hApart slots')
    · simpa [Forest.cover, coverAlong, hNode, hInside] using hLater
  | @branch m id sibling child pivot live children rest hNode hChildren hRest ihChildren ihRest =>
    have hApart := Forest.nodup_branch.mp hNodup
    rw [Forest.serials, List.length_cons, List.length_append] at hSteps
    obtain ⟨steps, rfl⟩ : ∃ k, steps = k + 2 := ⟨steps - 2, by omega⟩
    have hBelowLength : 2 * children.serials.length ≤ steps := by omega
    have hLength : 2 * rest.serials.length ≤ steps + 1 := by omega
    have hLater := (ihRest q hApart.behind hLength).behindBranch hNode hChildren hApart
    by_cases hInside : isSubregion m q = true
    · by_cases hPivot : (live && weaklyDominates pivot.vector point) = true
      · simp only [Forest.cover, coverAlong, cover, hNode, hInside, hPivot, Option.pure_def,
          Option.bind_eq_bind, Option.bind_some, reduceIte]
        exact .covered rfl (.refl (.branch hNode hChildren hRest))
      · have hBelow := ihChildren (region pivot.vector point) hApart.below hBelowLength
        simp only [Forest.cover, coverAlong, cover, hNode, hInside, hPivot, Option.pure_def,
          Option.bind_eq_bind, Option.bind_some, reduceIte]
        -- the children are searched in the arena as it is, the rest only if they find nothing
        revert hBelow
        generalize children.cover (region pivot.vector point) point = found
        generalize coverAlong point (region pivot.vector point) steps arena child = result
        intro hBelow
        cases hBelow with
        | uncovered => exact hLater
        | covered hSize hRewrites => exact .covered hSize (hRewrites.below hNode hRest hApart)
    · simpa [Forest.cover, coverAlong, hNode, hInside] using hLater

-- ---------------------------------------------------------------------------
-- Evicting
-- ---------------------------------------------------------------------------

/-- A pass from `cursor` on has ended as that over the forest has. -/
def Evicts (arena : Arena α) (cursor : Option Nat) (f : Forest α)
    (expected : Forest α × Eviction α) (result : Option (Eviction α × Arena α)) : Prop :=
  ∃ arena', result = some (expected.2, arena') ∧ arena'.size = arena.size ∧
    Rewrites f arena arena' cursor expected.1

theorem evictAlong_none (point : List α) (q : Nat) (own : Bool) (steps : Nat) (e : Eviction α) :
    evictAlong point q own steps e arena none = some (e, arena) := by
  cases steps <;> rfl

/-- A node in another region is passed by. -/
theorem evictAlong_outside (point : List α) (q : Nat) (own : Bool) (steps : Nat) (e : Eviction α)
    {node : Node α} (hNode : arena[id]? = some node)
    (hOutside : ¬ isSubregion q node.region = true) :
    evictAlong point q own (steps + 1) e arena (some id) =
      evictAlong point q own steps e arena node.sibling := by
  simp [evictAlong, hNode, hOutside]

/-- The slots of a bucket are gone through, then the siblings behind it. -/
theorem evictAlong_leaf (point : List α) (q : Nat) (own : Bool) (steps : Nat) (e : Eviction α)
    (hNode : arena[id]? = some ⟨m, sibling, .leaf slots⟩) (hInside : isSubregion q m = true) :
    evictAlong point q own (steps + 2) e arena (some id) =
      evictAlong point q own (steps + 1) (Forest.evictBucket q m point own slots e).2
        (arena.setIfInBounds id
          ⟨m, sibling, .leaf (Forest.evictBucket q m point own slots e).1⟩) sibling := by
  simp [evictAlong, evict, Forest.evictBucket, hNode, hInside]

/-- The pivot of a branch is marked, then its children are gone through, and last the siblings
behind it. -/
theorem evictAlong_branch (point : List α) (q : Nat) (own : Bool) (steps : Nat) (e : Eviction α)
    (hNode : arena[id]? = some ⟨m, sibling, .branch pivot live child⟩)
    (hInside : isSubregion q m = true) :
    evictAlong point q own (steps + 2) e arena (some id) =
      (evictAlong point (region pivot.vector point) (own && m == q) steps
        (Forest.evictPivot point live pivot e)
        (arena.setIfInBounds id ⟨m, sibling,
          .branch pivot (live && !(live && dominates point pivot.vector)) child⟩) child).bind
        fun below => evictAlong point q own (steps + 1) below.1 below.2 sibling := by
  simp only [evictAlong, evict, hNode, hInside, Option.bind_eq_bind, Option.bind_some, reduceIte]
  rfl

/-- An eviction ends, and removes what the eviction from the forest removes. -/
theorem evictAlong_spelled (point : List α) (q : Nat) (own : Bool) {steps : Nat} (e : Eviction α)
    (h : Spells arena cursor f) (hNodup : f.serials.Nodup)
    (hSteps : 2 * f.serials.length ≤ steps) :
    Evicts arena cursor f (f.evict q point own e)
      (evictAlong point q own steps e arena cursor) := by
  -- on the forest, since the spelling changes under the pass
  induction f generalizing arena cursor q own steps e with
  | nil =>
    cases h
    exact ⟨arena, evictAlong_none point q own steps e, rfl, .refl .nil⟩
  | leaf m id slots rest ih =>
    cases h with
    | @leaf _ _ sibling _ _ hNode hRest =>
    obtain ⟨hApart, hNodup⟩ := Forest.nodup_leaf.mp hNodup
    rw [Forest.serials, List.length_cons] at hSteps
    obtain ⟨steps, rfl⟩ : ∃ k, steps = k + 2 := ⟨steps - 2, by omega⟩
    have hLength : 2 * rest.serials.length ≤ steps + 1 := by omega
    rw [Forest.evict_leaf]
    by_cases hInside : isSubregion q m = true
    · rw [evictAlong_leaf point q own steps e hNode hInside]
      generalize Forest.evictBucket q m point own slots e = evicted
      -- first the bucket is rewritten, then what is behind it, which has kept its place
      have hHere := Rewrites.bucket hNode hRest hApart evicted.1
      obtain ⟨arena', hRun, hSize, hBehind⟩ := ih q own evicted.2
        (hRest.write hApart ⟨m, sibling, .leaf evicted.1⟩) hNodup hLength
      refine ⟨arena', hRun, ?_, ?_⟩
      · rw [hSize, Array.size_setIfInBounds]
      · exact hHere.trans rfl (hBehind.behindLeaf (getElem?_write_self hNode _) hApart)
    · have hBucket : Forest.evictBucket q m point own slots e = (slots, e) := if_neg hInside
      obtain ⟨arena', hRun, hSize, hBehind⟩ := ih q own e hRest hNodup hLength
      rw [evictAlong_outside point q own (steps + 1) e hNode hInside, hBucket]
      exact ⟨arena', hRun, hSize, hBehind.behindLeaf hNode hApart⟩
  | branch m id pivot live children rest ihChildren ihRest =>
    cases h with
    | @branch _ _ sibling child _ _ _ _ hNode hChildren hRest =>
    have hApart := Forest.nodup_branch.mp hNodup
    rw [Forest.serials, List.length_cons, List.length_append] at hSteps
    obtain ⟨steps, rfl⟩ : ∃ k, steps = k + 2 := ⟨steps - 2, by omega⟩
    have hBelowLength : 2 * children.serials.length ≤ steps := by omega
    have hLength : 2 * rest.serials.length ≤ steps + 1 := by omega
    by_cases hInside : isSubregion q m = true
    · let marked : Node α :=
        ⟨m, sibling, .branch pivot (live && !(live && dominates point pivot.vector)) child⟩
      obtain ⟨arenaBelow, hRunBelow, hSizeBelow, hBelow⟩ :=
        ihChildren (region pivot.vector point) (own && m == q)
          (Forest.evictPivot point live pivot e) (hChildren.write hApart.not_below marked)
          hApart.below hBelowLength
      have hSerials := (Forest.thinned_evict (region pivot.vector point) point (own && m == q)
        children (Forest.evictPivot point live pivot e)).serials_eq
      -- what was done below has left the siblings as they were
      have hRestBelow := hBelow.frame (hRest.write hApart.not_behind marked) fun n hn hMem =>
        hApart.apart n hMem hn
      obtain ⟨arena', hRun, hSize, hBehind⟩ := ihRest q own _ hRestBelow hApart.behind hLength
      rw [Forest.evict_branch_inside hInside, evictAlong_branch point q own steps e hNode hInside,
        hRunBelow, Option.bind_some]
      refine ⟨arena', hRun, ?_, .inTurn hNode hChildren hRest hApart hBelow hSerials hBehind⟩
      rw [hSize, hSizeBelow, Array.size_setIfInBounds]
    · obtain ⟨arena', hRun, hSize, hBehind⟩ := ihRest q own e hRest hApart.behind hLength
      rw [Forest.evict_branch_outside hInside,
        evictAlong_outside point q own (steps + 1) e hNode hInside]
      exact ⟨arena', hRun, hSize, hBehind.behindBranch hNode hChildren hApart⟩

-- ---------------------------------------------------------------------------
-- Detaching
-- ---------------------------------------------------------------------------

/-- Looks for a region from `cursor` on and detaches an entry from the node that has it. -/
def detachAlong (solution : Permutation) (vector : List α) (q search steps : Nat)
    (arena : Arena α) (cursor : Option Nat) : Option (Arena α) := do
  let found ← find q arena search cursor
  found.elim (some arena) (detach solution vector steps arena)

theorem detach_branch (solution : Permutation) (vector : List α) (steps : Nat)
    (hNode : arena[id]? = some ⟨m, sibling, .branch pivot live child⟩)
    (hOther : ¬ (live && decide (pivot.solution = solution)) = true) :
    detach solution vector (steps + 1) arena id =
      detachAlong solution vector (region pivot.vector vector) arena.patience steps arena
        child := by
  simp only [detach, detachAlong, hNode, hOther, Option.bind_eq_bind, Option.bind_some]
  cases find (region pivot.vector vector) arena arena.patience child with
  | none => rfl
  | some found => cases found <;> rfl

/-- A detachment ends, and removes what the detachment from the forest removes. -/
theorem detachAlong_spelled (solution : Permutation) (vector : List α) (q : Nat)
    {search steps : Nat} (h : Spells arena cursor f) (hNodup : f.serials.Nodup)
    (hSearch : f.serials.length ≤ search) (hSteps : f.serials.length ≤ steps)
    (hPatience : f.serials.length ≤ arena.patience) :
    ∃ arena', detachAlong solution vector q search steps arena cursor = some arena' ∧
      arena'.size = arena.size ∧ Rewrites f arena arena' cursor (f.detach solution vector q) := by
  -- on the spelling: along the siblings while looking for the region, then one level down
  induction h generalizing q search steps with
  | nil =>
    refine ⟨arena, ?_, rfl, .refl .nil⟩
    cases search <;> rfl
  | @leaf m id sibling slots rest hNode hRest ih =>
    obtain ⟨hApart, hNodup⟩ := Forest.nodup_leaf.mp hNodup
    rw [Forest.serials, List.length_cons] at hSearch hSteps hPatience
    obtain ⟨search, rfl⟩ : ∃ k, search = k + 1 := ⟨search - 1, by omega⟩
    obtain ⟨steps, rfl⟩ : ∃ k, steps = k + 1 := ⟨steps - 1, by omega⟩
    rw [Forest.detach]
    by_cases hHere : m = q
    · rw [if_pos hHere]
      refine ⟨_, ?_, ?_, .bucket hNode hRest hApart _⟩
      · simp [detachAlong, find, detach, hNode, hHere]
      · simp
    · obtain ⟨arena', hRun, hSize, hBehind⟩ :=
        ih q hNodup (Nat.le_of_succ_le_succ hSearch) (Nat.le_of_succ_le hSteps)
          (Nat.le_of_succ_le hPatience)
      rw [if_neg hHere]
      refine ⟨arena', ?_, hSize, hBehind.behindLeaf hNode hApart⟩
      simpa [detachAlong, find, hNode, hHere] using hRun
  | @branch m id sibling child pivot live children rest hNode hChildren hRest ihChildren ihRest =>
    have hApart := Forest.nodup_branch.mp hNodup
    rw [Forest.serials, List.length_cons, List.length_append] at hSearch hSteps hPatience
    obtain ⟨search, rfl⟩ : ∃ k, search = k + 1 := ⟨search - 1, by omega⟩
    obtain ⟨steps, rfl⟩ : ∃ k, steps = k + 1 := ⟨steps - 1, by omega⟩
    rw [Forest.detach]
    by_cases hHere : m = q
    · rw [if_pos hHere]
      -- the search for the region ends at this node
      have hFound : detachAlong solution vector q (search + 1) (steps + 1) arena (some id) =
          detach solution vector (steps + 1) arena id := by
        simp [detachAlong, find, hNode, hHere]
      rw [hFound]
      by_cases hPivot : (live && decide (pivot.solution = solution)) = true
      · rw [if_pos hPivot]
        refine ⟨_, ?_, ?_, .setLive hNode hChildren hRest hApart false⟩
        · simp only [detach, hNode, hPivot, Option.bind_eq_bind, Option.bind_some, reduceIte]
          rfl
        · simp
      · rw [if_neg hPivot, detach_branch solution vector steps hNode hPivot]
        have hSearchBelow : children.serials.length ≤ arena.patience := by omega
        have hStepsBelow : children.serials.length ≤ steps := by omega
        obtain ⟨arena', hRun, hSize, hBelow⟩ := ihChildren (region pivot.vector vector)
          hApart.below hSearchBelow hStepsBelow hSearchBelow
        exact ⟨arena', hRun, hSize, hBelow.below hNode hRest hApart⟩
    · have hSearchBehind : rest.serials.length ≤ search := by omega
      have hStepsBehind : rest.serials.length ≤ steps + 1 := by omega
      have hPatienceBehind : rest.serials.length ≤ arena.patience := by omega
      obtain ⟨arena', hRun, hSize, hBehind⟩ :=
        ihRest q hApart.behind hSearchBehind hStepsBehind hPatienceBehind
      rw [if_neg hHere]
      refine ⟨arena', ?_, hSize, hBehind.behindBranch hNode hChildren hApart⟩
      simpa [detachAlong, find, hNode, hHere] using hRun

end SwapSearch.Pareto.Arena
