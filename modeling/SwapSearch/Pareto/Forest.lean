import SwapSearch.Pareto.Dominance
import SwapSearch.Permutation

/-!
# SwapSearch — the region forest

Retained entries live in a tree whose branches split the space of vectors at a
*pivot*: below a branch, entries are sorted into children by their region
relative to the pivot's vector. The children of a branch form a `Forest`, a list
of trees in ascending order of their regions. A tree is a bucket of entries or
again a branch.

A pivot that is dominated later is no longer *live*. Its entry is gone, but its
vector keeps splitting the space.

Every node has a *serial*, its rank in order of creation; `entries` lists what is
retained in that order.

An insertion goes through three passes:

* `cover` looks for an entry that weakly dominates the point, in the regions that
  are subsets of the point's own;
* `evict` removes what the point dominates, in the regions that are supersets. The
  first entry removed from the bucket the point itself belongs to is replaced by
  it on the spot;
* `place` puts the point into its bucket, if it has no place yet. A bucket that
  grows past the capacity is split.
-/

namespace SwapSearch.Pareto

/-- A solution and its objective vector. -/
structure Entry (α : Type) where
  solution : Permutation
  vector : List α

/-- A stored entry, and how often it has turned a newcomer away. -/
structure Slot (α : Type) extends Entry α where
  hits : Nat

/-- Trees of a region forest, in ascending order of their regions. -/
inductive Forest (α : Type) where
  | nil
  | leaf (region serial : Nat) (slots : List (Slot α)) (rest : Forest α)
  | branch (region serial : Nat) (pivot : Slot α) (live : Bool) (children rest : Forest α)

variable {α : Type} [Scalar α]

-- ---------------------------------------------------------------------------
-- Covering
-- ---------------------------------------------------------------------------

/-- One more newcomer turned away. The count stays at the largest 32-bit number. -/
def Slot.credit (s : Slot α) : Slot α := { s with hits := min (s.hits + 1) (Word.halfSize - 1) }

/-- Finds the first slot that weakly dominates the point. It is credited, and moves one place
forward once it has strictly more hits than its predecessor. -/
def coverSlots (point : List α) (slots : List (Slot α)) : Option (List (Slot α)) :=
  let uncovered := slots.takeWhile fun s => !weaklyDominates s.vector point
  match slots.drop uncovered.length with
  | [] => none
  | s :: after =>
    let s := s.credit
    match uncovered.getLast? with
    | some before =>
      if before.hits < s.hits then some (uncovered.dropLast ++ s :: before :: after)
      else some (uncovered ++ s :: after)
    | none => some (s :: after)

namespace Forest

/-- Looks for an entry that weakly dominates the point, whose region here is `q`. Answers the
forest with that entry credited, or nothing if the point is not covered. -/
def cover (q : Nat) (point : List α) : Forest α → Option (Forest α)
  | nil => none
  | leaf m serial slots rest =>
    match if isSubregion m q then coverSlots point slots else none with
    | some slots => some (leaf m serial slots rest)
    | none => (cover q point rest).map (leaf m serial slots)
  | branch m serial pivot live children rest =>
    if isSubregion m q then
      if live && weaklyDominates pivot.vector point then
        some (branch m serial pivot live children rest)
      else
        match cover (region pivot.vector point) point children with
        | some children => some (branch m serial pivot live children rest)
        | none => (cover q point rest).map (branch m serial pivot live children)
    else (cover q point rest).map (branch m serial pivot live children)

end Forest

-- ---------------------------------------------------------------------------
-- Evicting
-- ---------------------------------------------------------------------------

/-- What an eviction hands on: the newcomer, until it has found a place, and the solutions that
are gone. -/
structure Eviction (α : Type) where
  pending : Option (Slot α)
  gone : List Permutation

/-- Removes every slot that the point dominates. In the bucket that is the point's own, the first
of them makes room for the pending newcomer. -/
def evictSlots (point : List α) (own : Bool) :
    List (Slot α) → Eviction α → List (Slot α) × Eviction α
  | [], e => ([], e)
  | s :: rest, e =>
    if dominates point s.vector then
      let gone := s.solution :: e.gone
      match own, e.pending with
      | true, some newcomer =>
        let (rest, e) := evictSlots point own rest ⟨none, gone⟩
        (newcomer :: rest, e)
      | _, pending => evictSlots point own rest ⟨pending, gone⟩
    else
      let (rest, e) := evictSlots point own rest e
      (s :: rest, e)

namespace Forest

/-- Removes every entry that the point dominates, the point's region here being `q`. `own` says
that the forest lies on the way to the point's own bucket. -/
def evict (q : Nat) (point : List α) (own : Bool) : Forest α → Eviction α → Forest α × Eviction α
  | nil, e => (nil, e)
  | leaf m serial slots rest, e =>
    let (slots, e) :=
      if isSubregion q m then evictSlots point (own && m == q) slots e else (slots, e)
    let (rest, e) := evict q point own rest e
    (leaf m serial slots rest, e)
  | branch m serial pivot live children rest, e =>
    if isSubregion q m then
      let beaten := live && dominates point pivot.vector
      let e := if beaten then { e with gone := pivot.solution :: e.gone } else e
      let (children, e) :=
        evict (region pivot.vector point) point (own && m == q) children e
      let (rest, e) := evict q point own rest e
      (branch m serial pivot (live && !beaten) children rest, e)
    else
      let (rest, e) := evict q point own rest e
      (branch m serial pivot live children rest, e)

end Forest

-- ---------------------------------------------------------------------------
-- Placing
-- ---------------------------------------------------------------------------

/-- Adds a slot to the group of its region; groups are in descending order of their regions. -/
def addToGroup (m : Nat) (s : Slot α) :
    List (Nat × List (Slot α)) → List (Nat × List (Slot α))
  | [] => [(m, [s])]
  | (m', group) :: rest =>
    if m = m' then (m', group ++ [s]) :: rest
    else if m' < m then (m, [s]) :: (m', group) :: rest
    else (m', group) :: addToGroup m s rest

/-- A forest of one bucket for each group, created in the given order and put in front of one
another, with serials from `serial` on. -/
def bucketsOf : List (Nat × List (Slot α)) → (serial : Nat) → Forest α → Forest α × Nat
  | [], serial, forest => (forest, serial)
  | (m, group) :: rest, serial, forest => bucketsOf rest (serial + 1) (.leaf m serial group forest)

/-- The outcome of a placement: the forest, the next free serial, and the solutions that a split
found redundant. -/
structure Placement (α : Type) where
  forest : Forest α
  serial : Nat
  dropped : List Permutation

/-- Turns an overfull bucket into a branch at its narrowest entry. Of `capacity + 1` entries one
becomes the pivot, so no bucket of the others is overfull again. -/
def splitBucket (m own serial : Nat) (slots : List (Slot α)) (rest : Forest α) : Placement α :=
  let (kept, removed) := selectPivot (fun s : Slot α => s.vector) slots
  let dropped := removed.map (·.solution)
  match kept with
  | [] => ⟨.leaf m own [] rest, serial, dropped⟩
  | pivot :: others =>
    -- the last of the others takes the place that the pivot leaves
    let others := others.getLast?.toList ++ others.dropLast
    let groups := others.foldl
      (fun groups s => addToGroup (region pivot.vector s.vector) s groups) []
    let (children, serial) := bucketsOf groups serial .nil
    ⟨.branch m own pivot true children rest, serial, dropped⟩

namespace Forest

/-- Puts a slot into the bucket of its region `q`, which is created where it is missing. -/
def place (capacity : Nat) (slot : Slot α) (q serial : Nat) : Forest α → Placement α
  | nil => ⟨leaf q serial [slot] nil, serial + 1, []⟩
  | leaf m own slots rest =>
    if m = q then
      let slots := slots ++ [slot]
      if capacity < slots.length then splitBucket m own serial slots rest
      else ⟨leaf m own slots rest, serial, []⟩
    else if q < m then ⟨leaf q serial [slot] (leaf m own slots rest), serial + 1, []⟩
    else
      let p := place capacity slot q serial rest
      { p with forest := leaf m own slots p.forest }
  | branch m own pivot live children rest =>
    if m = q then
      let p := place capacity slot (region pivot.vector slot.vector) serial children
      { p with forest := branch m own pivot live p.forest rest }
    else if q < m then
      ⟨leaf q serial [slot] (branch m own pivot live children rest), serial + 1, []⟩
    else
      let p := place capacity slot q serial rest
      { p with forest := branch m own pivot live children p.forest }

-- ---------------------------------------------------------------------------
-- Detaching and listing
-- ---------------------------------------------------------------------------

/-- Removes the entry of a solution that is stored with the given vector, whose region here is
`q`. -/
def detach (solution : Permutation) (vector : List α) (q : Nat) : Forest α → Forest α
  | nil => nil
  | leaf m serial slots rest =>
    if m = q then leaf m serial (slots.filter (·.solution ≠ solution)) rest
    else leaf m serial slots (detach solution vector q rest)
  | branch m serial pivot live children rest =>
    if m = q then
      if live && pivot.solution = solution then branch m serial pivot false children rest
      else
        branch m serial pivot live
          (detach solution vector (region pivot.vector vector) children) rest
    else branch m serial pivot live children (detach solution vector q rest)

/-- The live entries of every node, with the node's serial. -/
def nodes : Forest α → List (Nat × List (Entry α))
  | nil => []
  | leaf _ serial slots rest => (serial, slots.map (·.toEntry)) :: nodes rest
  | branch _ serial pivot live children rest =>
    (serial, if live then [pivot.toEntry] else []) :: (nodes children ++ nodes rest)

/-- The live entries, in order of the creation of their nodes. -/
def entries (forest : Forest α) : List (Entry α) :=
  (forest.nodes.mergeSort fun a b => a.1 ≤ b.1).flatMap (·.2)

end Forest

end SwapSearch.Pareto
