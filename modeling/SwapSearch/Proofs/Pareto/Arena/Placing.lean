import Mathlib.Tactic.SplitIfs
import SwapSearch.Proofs.Pareto.Arena.Spelling

/-!
# SwapSearch — placing into an arena

A placement is the one operation that creates nodes and writes over pointers. It ends on
an arena that spells a forest, and the nodes spell the forest that a placement into that
forest gives.

On the way down a region that is missing is given an empty bucket, and the slot goes into
the bucket at the end. A missing region is the end of the way, so both writes together
put a bucket of one slot between two siblings.

A bucket that is overfull is split. It holds one slot more than the capacity, which
becomes the pivot, so no bucket of the others is overfull and a split is never repeated.

## Results

* `split_spelled` — a bucket becomes a branch.
* `place_spelled` — a slot is put into its bucket.
-/

namespace SwapSearch.Pareto

open Arena

variable {α : Type} {arena : Arena α} {cursor sibling child : Option Nat} {m id : Nat}
  {slots : List (Slot α)} {f rest : Forest α}

-- ---------------------------------------------------------------------------
-- Creating buckets
-- ---------------------------------------------------------------------------

/-- Buckets that are not overfull are created in front of one another. -/
theorem Arena.pushBuckets_spelled {capacity : Nat} {groups : List (Nat × List (Slot α))}
    (oversized : List Nat) (h : Spells arena cursor f)
    (hFits : ∀ g ∈ groups, g.2.length ≤ capacity) :
    ∃ head arena', arena.pushBuckets capacity groups cursor oversized =
        (head, oversized, arena') ∧
      arena'.size = (bucketsOf groups arena.size f).2 ∧
      Spells arena' head (bucketsOf groups arena.size f).1 ∧
      ∀ n < arena.size, arena'[n]? = arena[n]? := by
  induction groups generalizing arena cursor f with
  | nil => exact ⟨cursor, arena, rfl, rfl, h, fun _ _ => rfl⟩
  | cons group groups ih =>
    obtain ⟨m, bucket⟩ := group
    obtain ⟨hHere, hOthers⟩ := List.forall_mem_cons.mp hFits
    have hFirst : Spells (arena.push ⟨m, cursor, .leaf bucket⟩) (some arena.size)
        (.leaf m arena.size bucket f) := .leaf Array.getElem?_push_size (h.push _)
    obtain ⟨head, arena', hRun, hSize, hSpells, hSame⟩ := ih hFirst hOthers
    rw [Array.size_push] at hSize hSpells hSame
    refine ⟨head, arena', ?_, hSize, hSpells, fun n hn => ?_⟩
    · rw [pushBuckets, if_neg (Nat.not_lt.mpr hHere), hRun]
    · rw [hSame n (Nat.lt_succ_of_lt hn), Array.getElem?_push_lt hn, Array.getElem?_eq_getElem hn]

-- ---------------------------------------------------------------------------
-- Filling a bucket
-- ---------------------------------------------------------------------------

namespace LinkedArchive

variable {a : LinkedArchive α} {slot : Slot α}

@[simp] theorem forget_arena (a : LinkedArchive α) (gone : List Permutation) :
    (a.forget gone).arena = a.arena := rfl

@[simp] theorem forget_capacity (a : LinkedArchive α) (gone : List Permutation) :
    (a.forget gone).capacity = a.capacity := rfl

@[simp] theorem forget_nil (a : LinkedArchive α) : a.forget [] = a := by
  simp [forget]

/-- A placement from `cursor` on has ended as that into the forest has. -/
def Places (a : LinkedArchive α) (cursor : Option Nat) (f : Forest α) (p : Placement α)
    (result : Option (LinkedArchive α)) : Prop :=
  ∃ arena', result = some { a.forget p.dropped with arena := arena' } ∧
    arena'.size = p.serial ∧ Rewrites f a.arena arena' cursor p.forest

variable [Scalar α]

/-- A split of a bucket with one slot too many ends after one round. -/
theorem split_spelled (steps : Nat) (hNode : a.arena[id]? = some ⟨m, sibling, .leaf slots⟩)
    (hRest : Spells a.arena sibling rest) (hApart : id ∉ rest.serials)
    (hRoom : slots.length ≤ a.capacity + 1) :
    Places a (some id) (.leaf m id slots rest) (splitBucket m id a.arena.size slots rest)
      (a.split (steps + 1) id) := by
  -- the front of the slots is no longer than the slots
  have hKept := Nat.le_trans (Forest.length_selectPivot_le slots) hRoom
  simp only [split, splitBucket, hNode, Option.bind_eq_bind, Option.bind_some]
  revert hKept
  generalize selectPivot (fun s : Slot α => s.vector) slots = selected
  obtain ⟨kept, removed⟩ := selected
  intro hKept
  cases kept with
  | nil =>
    exact ⟨_, rfl, Array.size_setIfInBounds, .bucket hNode hRest hApart []⟩
  | cons pivot others =>
    dsimp only
    generalize hGroups : (others.getLast?.toList ++ others.dropLast).foldl
      (fun groups s => addToGroup (region pivot.vector s.vector) s groups) [] = groups
    have hFits := Forest.length_group_le hGroups (Nat.le_of_succ_le_succ hKept)
    -- the groups fit, so none of the new buckets is split again
    obtain ⟨head, arena', hRun, hSize, hChildren, hSame⟩ :=
      pushBuckets_spelled [] (.nil : Spells a.arena none .nil) hFits
    obtain ⟨-, hSerials, -⟩ := Forest.buckets_bucketsOf groups a.arena.size (.nil : Forest α)
    have hId : id < a.arena.size := lt_of_getElem? hNode
    have hNode' := (hSame id hId).trans hNode
    -- the children are new nodes, so none of them is the branch
    have hBelow : id ∉ (bucketsOf groups a.arena.size Forest.nil).1.serials := by
      intro hMem
      have hNew := hSerials.mem_iff.mp hMem
      simp only [Forest.serials, List.append_nil, List.mem_range'_1] at hNew
      omega
    have hRest' : Spells arena' sibling rest := hRest.congr fun n hn => hSame n (hRest.lt_size n hn)
    refine ⟨arena'.setIfInBounds id ⟨m, sibling, .branch pivot true head⟩, ?_, ?_, ?_⟩
    · simp only [forget_arena, forget_capacity, hRun]
      rfl
    · simpa using hSize
    · refine ⟨.branch (getElem?_write_self hNode' _) (hChildren.write hBelow _)
        (hRest'.write hApart _), ?_, fun n hn hElsewhere => ?_⟩
      · obtain ⟨hGrown, -⟩ := Forest.buckets_bucketsOf groups a.arena.size (.nil : Forest α)
        simp only [Array.size_setIfInBounds]
        omega
      · simp only [Forest.serials, List.mem_cons, not_or] at hElsewhere
        rw [getElem?_write_ne (Ne.symm hElsewhere.1), hSame n hn]

/-- A slot is added to a bucket, which may be overfull then. -/
theorem fill_spelled (hNode : a.arena[id]? = some ⟨m, sibling, .leaf slots⟩)
    (hRest : Spells a.arena sibling rest) (hApart : id ∉ rest.serials)
    (hRoom : slots.length ≤ a.capacity) (slot : Slot α) :
    Places a (some id) (.leaf m id slots rest)
      ((Forest.leaf m id slots rest).place a.capacity slot m a.arena.size) (a.fill slot id) := by
  have hAdded := Rewrites.bucket hNode hRest hApart (slots ++ [slot])
  simp only [Forest.place, fill, hNode, Option.bind_eq_bind, Option.bind_some, reduceIte]
  by_cases hOverfull : a.capacity < (slots ++ [slot]).length
  · have hLength : (slots ++ [slot]).length = slots.length + 1 := by simp
    have hOneMore : (slots ++ [slot]).length ≤ a.capacity + 1 := by omega
    have hNode' := getElem?_write_self hNode ⟨m, sibling, .leaf (slots ++ [slot])⟩
    have hRest' := hRest.write hApart ⟨m, sibling, .leaf (slots ++ [slot])⟩
    rw [if_pos hOverfull, if_pos hOverfull, hLength]
    obtain ⟨arena', hRun, hSize, hSplit⟩ := split_spelled slots.length
      (a := { a with arena := a.arena.setIfInBounds id ⟨m, sibling, .leaf (slots ++ [slot])⟩ })
      hNode' hRest' hApart hOneMore
    rw [Array.size_setIfInBounds] at hRun hSize hSplit
    exact ⟨arena', hRun, hSize, hAdded.trans rfl hSplit⟩
  · rw [if_neg hOverfull, if_neg hOverfull]
    exact ⟨_, by simp, by simp, hAdded⟩

end LinkedArchive

-- ---------------------------------------------------------------------------
-- Finding the place
-- ---------------------------------------------------------------------------

/-- Where a region belongs among the trees. `previous` is the node before them. -/
def Forest.spot (q : Nat) : (previous : Option Nat) → Forest α → Spot
  | previous, .nil => .gap previous none
  | previous, .leaf m n _ rest =>
    if m = q then .taken n else if q < m then .gap previous (some n) else rest.spot q (some n)
  | previous, .branch m n _ _ _ rest =>
    if m = q then .taken n else if q < m then .gap previous (some n) else rest.spot q (some n)

theorem Arena.seek_spelled (q : Nat) {steps : Nat} (previous : Option Nat)
    (h : Spells arena cursor f) (hSteps : f.serials.length ≤ steps) :
    seek q arena steps previous cursor = some (f.spot q previous) := by
  induction h generalizing steps previous with
  | nil => cases steps <;> rfl
  | @leaf m id sibling slots rest hNode hRest ih =>
    rw [Forest.serials, List.length_cons] at hSteps
    obtain ⟨steps, rfl⟩ : ∃ k, steps = k + 1 := ⟨steps - 1, by omega⟩
    have hLater := ih (some id) (Nat.le_of_succ_le_succ hSteps)
    simp only [seek, Forest.spot, hNode, Option.pure_def, Option.bind_eq_bind, Option.bind_some,
      hLater]
    split_ifs <;> rfl
  | @branch m id sibling child pivot live children rest hNode hChildren hRest ihChildren ihRest =>
    rw [Forest.serials, List.length_cons, List.length_append] at hSteps
    obtain ⟨steps, rfl⟩ : ∃ k, steps = k + 1 := ⟨steps - 1, by omega⟩
    have hLength : rest.serials.length ≤ steps := by omega
    have hLater := ihRest (some id) hLength
    simp only [seek, Forest.spot, hNode, Option.pure_def, Option.bind_eq_bind, Option.bind_some,
      hLater]
    split_ifs <;> rfl

-- ---------------------------------------------------------------------------
-- A missing region
-- ---------------------------------------------------------------------------

section LinkIn

variable {q before : Nat} {next : Option Nat} {slot : Slot α} {node : Node α}

/-- An arena with a new bucket and a new content for an old node. -/
def Arena.linkIn (arena : Arena α) (q : Nat) (next : Option Nat) (slots : List (Slot α))
    (before : Nat) (node : Node α) : Arena α :=
  (arena.push ⟨q, next, .leaf slots⟩).setIfInBounds before node

theorem Arena.getElem?_linkIn_before (hBefore : before < arena.size) :
    (arena.linkIn q next slots before node)[before]? = some node := by
  simp [linkIn, Nat.lt_succ_of_lt hBefore]

theorem Arena.getElem?_linkIn_ne {n : Nat} (hn : n < arena.size) (hNe : n ≠ before) :
    (arena.linkIn q next slots before node)[n]? = arena[n]? := by
  rw [linkIn, getElem?_write_ne (Ne.symm hNe), Array.getElem?_push_lt hn,
    Array.getElem?_eq_getElem hn]

/-- The new bucket stands in front of what it points to. -/
theorem Arena.spells_linkIn (h : Spells arena next f) (hBefore : before < arena.size)
    (hApart : before ∉ f.serials) :
    Spells (arena.linkIn q next slots before node) (some arena.size)
      (.leaf q arena.size slots f) := by
  refine .leaf ?_ ((h.push _).write hApart node)
  rw [linkIn, getElem?_write_ne (Nat.ne_of_lt hBefore)]
  exact Array.getElem?_push_size

/-- Creating an empty bucket and filling it later creates a full one. -/
theorem Arena.linkIn_fill (hBefore : before < arena.size) (slots : List (Slot α)) :
    (arena.linkIn q next [] before node).setIfInBounds arena.size ⟨q, next, .leaf slots⟩ =
      arena.linkIn q next slots before node := by
  have hFill : (arena.push ⟨q, next, .leaf []⟩).setIfInBounds arena.size ⟨q, next, .leaf slots⟩ =
      arena.push ⟨q, next, .leaf slots⟩ := by grind
  rw [linkIn, Array.setIfInBounds_comm _ _ (Nat.ne_of_lt hBefore), hFill, linkIn]

end LinkIn

/-- A bucket of one slot between two siblings. Where it is the first of them, the pointer to it is
another's. -/
inductive Opened (arena : Arena α) (cursor previous : Option Nat) (f : Forest α) (q : Nat)
    (slot : Slot α) : Spot → Forest α → Prop
  | front : Opened arena cursor previous f q slot (.gap previous cursor)
      (.leaf q arena.size [slot] f)
  | behind {before : Nat} {next : Option Nat} {node : Node α} {f' : Forest α}
      (hNode : arena[before]? = some node)
      (hRewrites : Rewrites f arena
        (arena.linkIn q next [slot] before { node with sibling := some arena.size }) cursor f') :
      Opened arena cursor previous f q slot (.gap (some before) next) f'

namespace Opened

variable {previous : Option Nat} {q : Nat} {slot pivot : Slot α} {live : Bool} {spot : Spot}
  {f' children : Forest α}

/-- The bucket goes behind the first one, perhaps right behind it. -/
theorem behindLeaf (h : Opened arena sibling (some id) rest q slot spot f')
    (hNode : arena[id]? = some ⟨m, sibling, .leaf slots⟩) (hRest : Spells arena sibling rest)
    (hApart : id ∉ rest.serials) :
    Opened arena (some id) previous (.leaf m id slots rest) q slot spot (.leaf m id slots f') := by
  have hId := lt_of_getElem? hNode
  cases h with
  | front =>
    refine .behind hNode ⟨.leaf (getElem?_linkIn_before hId) (spells_linkIn hRest hId hApart), ?_,
      fun n hn hElsewhere => ?_⟩
    · simp [linkIn]
    · simp only [Forest.serials, List.mem_cons, not_or] at hElsewhere
      exact getElem?_linkIn_ne hn hElsewhere.1
  | behind hBefore hRewrites => exact .behind hBefore (hRewrites.behindLeaf hNode hApart)

/-- The bucket goes behind the first branch, perhaps right behind it. -/
theorem behindBranch (h : Opened arena sibling (some id) rest q slot spot f')
    (hNode : arena[id]? = some ⟨m, sibling, .branch pivot live child⟩)
    (hChildren : Spells arena child children) (hRest : Spells arena sibling rest)
    (hApart : Forest.Separate id children rest) :
    Opened arena (some id) previous (.branch m id pivot live children rest) q slot spot
      (.branch m id pivot live children f') := by
  have hId := lt_of_getElem? hNode
  cases h with
  | front =>
    refine .behind hNode ⟨.branch (getElem?_linkIn_before hId) ?_
      (spells_linkIn hRest hId hApart.not_behind), ?_, fun n hn hElsewhere => ?_⟩
    · exact (hChildren.push _).write hApart.not_below _
    · simp [linkIn]
    · simp only [Forest.serials, List.mem_cons, not_or] at hElsewhere
      exact getElem?_linkIn_ne hn hElsewhere.1
  | behind hBefore hRewrites =>
    exact .behind hBefore (hRewrites.behindBranch hNode hChildren hApart)

end Opened

/-- Where a region is missing, a placement puts a bucket of one slot into its place. -/
theorem Forest.place_gap [Scalar α] (capacity q : Nat) (slot : Slot α) {previous : Option Nat}
    (h : Spells arena cursor f) (hNodup : f.serials.Nodup)
    (hGap : ∀ n, f.spot q previous ≠ .taken n) :
    (f.place capacity slot q arena.size).serial = arena.size + 1 ∧
      (f.place capacity slot q arena.size).dropped = [] ∧
      Opened arena cursor previous f q slot (f.spot q previous)
        (f.place capacity slot q arena.size).forest := by
  -- along the siblings up to the first region that is not below, where there is a gap
  induction h generalizing previous with
  | nil => exact ⟨rfl, rfl, .front⟩
  | @leaf m id sibling slots rest hNode hRest ih =>
    obtain ⟨hApart, hNodup⟩ := Forest.nodup_leaf.mp hNodup
    rw [Forest.spot] at hGap
    by_cases hHere : m = q
    · rw [if_pos hHere] at hGap
      exact absurd rfl (hGap id)
    · by_cases hBefore : q < m
      · rw [place, Forest.spot]
        simp only [hHere, hBefore, reduceIte]
        exact ⟨trivial, trivial, .front⟩
      · rw [if_neg hHere, if_neg hBefore] at hGap
        obtain ⟨hSerial, hDropped, hOpened⟩ := ih hNodup hGap
        rw [place, Forest.spot]
        simp only [hHere, hBefore, reduceIte]
        refine ⟨hSerial, hDropped, ?_⟩
        exact hOpened.behindLeaf hNode hRest hApart
  | @branch m id sibling child pivot live children rest hNode hChildren hRest ihChildren ihRest =>
    have hApart := Forest.nodup_branch.mp hNodup
    rw [Forest.spot] at hGap
    by_cases hHere : m = q
    · rw [if_pos hHere] at hGap
      exact absurd rfl (hGap id)
    · by_cases hBefore : q < m
      · rw [place, Forest.spot]
        simp only [hHere, hBefore, reduceIte]
        exact ⟨trivial, trivial, .front⟩
      · rw [if_neg hHere, if_neg hBefore] at hGap
        obtain ⟨hSerial, hDropped, hOpened⟩ := ihRest hApart.behind hGap
        rw [place, Forest.spot]
        simp only [hHere, hBefore, reduceIte]
        refine ⟨hSerial, hDropped, ?_⟩
        exact hOpened.behindBranch hNode hChildren hRest hApart

section Child

variable [Scalar α] {q before : Nat} {next : Option Nat} {pivot slot : Slot α} {live : Bool}
  {children : Forest α} {node : Node α}

omit [Scalar α] in
theorem Arena.change_push (hNode : arena[id]? = some node) (f : Node α → Node α)
    (slots : List (Slot α)) :
    change (arena.push ⟨q, next, .leaf slots⟩) id f =
      some (arena.linkIn q next slots id (f node)) := by
  have hId := lt_of_getElem? hNode
  have hKept : (arena.push ⟨q, next, .leaf slots⟩)[id]? = some node := by
    rw [Array.getElem?_push_lt hId, ← Array.getElem?_eq_getElem hId, hNode]
  simp [change, hKept, linkIn]

omit [Scalar α] in
theorem Arena.childInRegion_taken {n : Nat}
    (hNode : arena[id]? = some ⟨m, sibling, .branch pivot live child⟩)
    (hChildren : Spells arena child children) (hPatience : children.serials.length ≤ arena.patience)
    (hTaken : children.spot q none = .taken n) :
    arena.childInRegion id q = some (n, arena) := by
  simp [childInRegion, hNode, Content.child?, seek_spelled q none hChildren hPatience, hTaken]

/-- Where a child is missing, an empty bucket is linked in. With the slot in it, the nodes spell
what a placement gives. -/
theorem Arena.childInRegion_gap (capacity : Nat) (slot : Slot α)
    (hNode : arena[id]? = some ⟨m, sibling, .branch pivot live child⟩)
    (hChildren : Spells arena child children) (hRest : Spells arena sibling rest)
    (hApart : Forest.Separate id children rest)
    (hPatience : children.serials.length ≤ arena.patience)
    (hGap : ∀ n, children.spot q none ≠ .taken n) :
    ∃ next before node, before < arena.size ∧
      arena.childInRegion id q = some (arena.size, arena.linkIn q next [] before node) ∧
      Rewrites (.branch m id pivot live children rest) arena
        (arena.linkIn q next [slot] before node) (some id)
        (.branch m id pivot live (children.place capacity slot q arena.size).forest rest) := by
  obtain ⟨-, -, hOpened⟩ := Forest.place_gap capacity q slot hChildren hApart.below hGap
  have hId := lt_of_getElem? hNode
  have hSeek := seek_spelled q none hChildren hPatience
  revert hOpened hSeek
  generalize children.spot q none = spot
  generalize (children.place capacity slot q arena.size).forest = f'
  intro hOpened hSeek
  -- the new bucket is linked in front of the children, or behind one of them
  cases hOpened with
  | front =>
    refine ⟨child, id, ⟨m, sibling, .branch pivot live (some arena.size)⟩, hId, ?_,
      .branch (getElem?_linkIn_before hId) (spells_linkIn hChildren hId hApart.not_below) ?_, ?_,
      fun n hn hElsewhere => ?_⟩
    · simp [childInRegion, hNode, Content.child?, hSeek, change_push hNode, Content.withChild]
    · exact (hRest.push _).write hApart.not_behind _
    · simp [linkIn]
    · simp only [Forest.serials, List.mem_cons, not_or] at hElsewhere
      exact getElem?_linkIn_ne hn hElsewhere.1
  | @behind before next node _ hBefore hRewrites =>
    refine ⟨next, before, { node with sibling := some arena.size }, lt_of_getElem? hBefore, ?_,
      hRewrites.below hNode hRest hApart⟩
    simp [childInRegion, hNode, Content.child?, hSeek, change_push hBefore]

end Child

-- ---------------------------------------------------------------------------
-- Placing
-- ---------------------------------------------------------------------------

namespace LinkedArchive

variable [Scalar α] {a : LinkedArchive α} {slot pivot : Slot α} {live : Bool}

theorem place_leaf (steps : Nat) (slot : Slot α)
    (hNode : a.arena[id]? = some ⟨m, sibling, .leaf slots⟩) :
    a.place (steps + 1) slot id = a.fill slot id := by
  simp [place, descend, hNode]

theorem place_branch (steps : Nat) (slot : Slot α)
    (hNode : a.arena[id]? = some ⟨m, sibling, .branch pivot live child⟩) :
    a.place (steps + 1) slot id =
      (a.arena.childInRegion id (region pivot.vector slot.vector)).bind fun found =>
        { a with arena := found.2 }.place steps slot found.1 := by
  simp only [place, descend, hNode, Option.bind_eq_bind, Option.bind_some]
  cases a.arena.childInRegion id (region pivot.vector slot.vector) <;> rfl

/-- The slot goes into a bucket that has just been linked in. -/
theorem place_linkIn {q before : Nat} {next : Option Nat} {node : Node α} (steps : Nat)
    (slot : Slot α) (hCapacity : 1 ≤ a.capacity) (hBefore : before < a.arena.size) :
    { a with arena := a.arena.linkIn q next [] before node }.place (steps + 1) slot a.arena.size =
      some { a with arena := a.arena.linkIn q next [slot] before node } := by
  have hNew : (a.arena.linkIn q next [] before node)[a.arena.size]? =
      some ⟨q, next, .leaf []⟩ := by
    rw [linkIn, getElem?_write_ne (Nat.ne_of_lt hBefore)]
    exact Array.getElem?_push_size
  rw [place_leaf (a := { a with arena := a.arena.linkIn q next [] before node }) steps slot hNew]
  simp only [fill, hNew, Option.bind_eq_bind, Option.bind_some, List.nil_append,
    List.length_singleton, linkIn_fill hBefore, if_neg (Nat.not_lt.mpr hCapacity)]
  rfl

/-- The slot goes below a branch, into the child of its region or into one that is linked in
first. -/
theorem placeBelow_spelled {steps : Nat} {children : Forest α} (slot : Slot α)
    (hNode : a.arena[id]? = some ⟨m, sibling, .branch pivot live child⟩)
    (hChildren : Spells a.arena child children) (hRest : Spells a.arena sibling rest)
    (hApart : Forest.Separate id children rest) (hCapacity : 1 ≤ a.capacity)
    (hPatience : children.serials.length ≤ a.arena.patience)
    (hPlace : ∀ n, children.spot (region pivot.vector slot.vector) none = .taken n →
      Places a child children
        (children.place a.capacity slot (region pivot.vector slot.vector) a.arena.size)
        (a.place (steps + 1) slot n)) :
    Places a (some id) (.branch m id pivot live children rest)
      ((Forest.branch m id pivot live children rest).place a.capacity slot m a.arena.size)
      (a.place (steps + 2) slot id) := by
  rw [place_branch (steps + 1) slot hNode, Forest.place, if_pos rfl]
  by_cases hFound : ∃ n, children.spot (region pivot.vector slot.vector) none = .taken n
  · obtain ⟨n, hFound⟩ := hFound
    obtain ⟨arena', hRun, hSize, hBelow⟩ := hPlace n hFound
    rw [childInRegion_taken hNode hChildren hPatience hFound, Option.bind_some]
    exact ⟨arena', hRun, hSize, hBelow.below hNode hRest hApart⟩
  · -- there is no such child yet, so the slot is the first of a new bucket
    have hGap := not_exists.mp hFound
    obtain ⟨next, before, node, hBefore, hChild, hRewrites⟩ :=
      childInRegion_gap a.capacity slot hNode hChildren hRest hApart hPatience hGap
    obtain ⟨hSerial, hDropped, -⟩ := Forest.place_gap a.capacity _ slot hChildren hApart.below hGap
    rw [hChild, Option.bind_some, place_linkIn steps slot hCapacity hBefore]
    refine ⟨_, ?_, ?_, hRewrites⟩
    · simp [hDropped]
    · simp [hSerial, linkIn]

/-- The slot goes into the bucket of its region, which the node with the first region on its way is
or is above of. -/
theorem place_spelled {q steps : Nat} (slot : Slot α) {previous : Option Nat} {f : Forest α}
    (h : Spells a.arena cursor f) (hNodup : f.serials.Nodup) (hCapacity : 1 ≤ a.capacity)
    (hFits : f.Fits a.capacity) (hSteps : f.serials.length + 1 ≤ steps)
    (hPatience : f.serials.length ≤ a.arena.patience) (hTaken : f.spot q previous = .taken id) :
    Places a cursor f (f.place a.capacity slot q a.arena.size) (a.place steps slot id) := by
  -- along the siblings to the node that was found, then down from child to child
  induction h generalizing q steps previous id with
  | nil => simp [Forest.spot] at hTaken
  | @leaf m own sibling slots rest hNode hRest ih =>
    obtain ⟨hApart, hNodup⟩ := Forest.nodup_leaf.mp hNodup
    obtain ⟨hHereFits, hRestFits⟩ := Forest.fits_leaf.mp hFits
    rw [Forest.serials, List.length_cons] at hSteps hPatience
    rw [Forest.spot] at hTaken
    by_cases hHere : m = q
    · rw [if_pos hHere, Spot.taken.injEq] at hTaken
      obtain ⟨steps, rfl⟩ : ∃ k, steps = k + 1 := ⟨steps - 1, by omega⟩
      subst hTaken hHere
      rw [place_leaf steps slot hNode]
      exact fill_spelled hNode hRest hApart hHereFits slot
    · by_cases hBefore : q < m
      · simp [hHere, hBefore] at hTaken
      · simp only [hHere, hBefore, reduceIte] at hTaken
        obtain ⟨arena', hRun, hSize, hBehind⟩ :=
          ih hNodup hRestFits (Nat.le_of_succ_le hSteps) (Nat.le_of_succ_le hPatience) hTaken
        rw [Forest.place]
        simp only [hHere, hBefore, reduceIte]
        exact ⟨arena', hRun, hSize, hBehind.behindLeaf hNode hApart⟩
  | @branch m own sibling child pivot live children rest hNode hChildren hRest ihChildren ihRest =>
    have hApart := Forest.nodup_branch.mp hNodup
    obtain ⟨hBelowFits, hRestFits⟩ := Forest.fits_branch.mp hFits
    rw [Forest.serials, List.length_cons, List.length_append] at hSteps hPatience
    rw [Forest.spot] at hTaken
    by_cases hHere : m = q
    · rw [if_pos hHere, Spot.taken.injEq] at hTaken
      obtain ⟨steps, rfl⟩ : ∃ k, steps = k + 2 := ⟨steps - 2, by omega⟩
      subst hTaken hHere
      refine placeBelow_spelled slot hNode hChildren hRest hApart hCapacity (by omega) ?_
      intro n hFound
      exact ihChildren hApart.below hBelowFits (by omega) (by omega) hFound
    · by_cases hBefore : q < m
      · simp [hHere, hBefore] at hTaken
      · simp only [hHere, hBefore, reduceIte] at hTaken
        have hStepsBehind : rest.serials.length + 1 ≤ steps := by omega
        have hPatienceBehind : rest.serials.length ≤ a.arena.patience := by omega
        obtain ⟨arena', hRun, hSize, hBehind⟩ :=
          ihRest hApart.behind hRestFits hStepsBehind hPatienceBehind hTaken
        rw [Forest.place]
        simp only [hHere, hBefore, reduceIte]
        exact ⟨arena', hRun, hSize, hBehind.behindBranch hNode hChildren hApart⟩

end LinkedArchive

end SwapSearch.Pareto
