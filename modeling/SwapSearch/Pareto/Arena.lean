import SwapSearch.Pareto.Archive

/-!
# SwapSearch — the archive in an arena

A region forest is kept in an *arena*, an array of nodes that point to one another. The
place of a node in the array is its *id*. A branch points to its first child, and every
node to its next sibling. Nodes are created at the end of the array and linked in by
writing over the pointers of older ones, so a pointer is data like any other: nothing in
its type keeps it from leading out of the array, or in a circle.

An operation follows pointers for as long as there are any, and nothing bounds that. So it is
given a number of `steps`, by which its calls may be nested, a next round of a loop being a
call as well. It has no result, `none`, if these do not suffice or if a pointer leads out of
the array. An archive allows for more steps than a walk can make that never comes back to a
node (`Arena.patience`), so `none` stands for a walk that does not end.

* `Arena` holds the nodes, and the passes of an insertion over them: `cover` and `evict`
  go from a node into the chain of its children and back, `descend` follows the regions of
  a vector down to a bucket and creates what is missing on the way, and `detach` follows
  them down to an entry.
* `LinkedArchive` is the archive over an arena. It is offered the same pairs as an
  `Archive`.
-/

namespace SwapSearch.Pareto

variable {α : Type}

-- ---------------------------------------------------------------------------
-- Nodes
-- ---------------------------------------------------------------------------

/-- What a node holds: a bucket of slots, or a pivot and the id of the first child. -/
inductive Content (α : Type) where
  | leaf (slots : List (Slot α))
  | branch (pivot : Slot α) (live : Bool) (child : Option Nat)

/-- A node. Its region is relative to the pivot of the branch it is a child of. -/
structure Node (α : Type) where
  region : Nat
  sibling : Option Nat
  content : Content α

/-- The nodes of an archive, in order of their creation. -/
abbrev Arena (α : Type) := Array (Node α)

namespace Content

/-- The id of the first child. A bucket has none. -/
def child? : Content α → Option Nat
  | .leaf _ => none
  | .branch _ _ child => child

/-- Points a branch to another first child. A bucket stays as it is. -/
def withChild (child : Option Nat) : Content α → Content α
  | .leaf slots => .leaf slots
  | .branch pivot live _ => .branch pivot live child

/-- The live entries. -/
def entries : Content α → List (Entry α)
  | .leaf slots => slots.map (·.toEntry)
  | .branch pivot live _ => if live then [pivot.toEntry] else []

end Content

namespace Arena

/-- The steps that an operation is allowed. At every node a walk makes two at most: one to look at
it from the chain it is in, and one to go below it. -/
def patience (arena : Arena α) : Nat := 2 * arena.size + 1

/-- Changes the node with the given id. -/
def change (arena : Arena α) (id : Nat) (f : Node α → Node α) : Option (Arena α) := do
  let node ← arena[id]?
  return arena.setIfInBounds id (f node)

/-- Appends a bucket for each group, each in front of the one before. The result has the id of the
last one, the ids of those that are overfull, and the arena. -/
def pushBuckets (capacity : Nat) : List (Nat × List (Slot α)) → (head : Option Nat) →
    (oversized : List Nat) → Arena α → Option Nat × List Nat × Arena α
  | [], head, oversized, arena => (head, oversized, arena)
  | (m, bucket) :: rest, head, oversized, arena =>
    pushBuckets capacity rest (some arena.size)
      (if capacity < bucket.length then oversized ++ [arena.size] else oversized)
      (arena.push ⟨m, head, .leaf bucket⟩)

-- ---------------------------------------------------------------------------
-- Along siblings
-- ---------------------------------------------------------------------------

/-- Where a region belongs among siblings: at a node that has it, or between two nodes. -/
inductive Spot where
  | taken (id : Nat)
  | gap (previous next : Option Nat)

/-- Looks for the place of a region from `cursor` on. Siblings are in ascending order. -/
def seek (q : Nat) (arena : Arena α) : (steps : Nat) → (previous cursor : Option Nat) → Option Spot
  | _, previous, none => some (.gap previous none)
  | 0, _, some _ => none
  | steps + 1, previous, some id => do
    let node ← arena[id]?
    if node.region = q then return .taken id
    else if q < node.region then return .gap previous (some id)
    else seek q arena steps (some id) node.sibling

/-- The child of a node with the given region. It is created where it is missing, as an empty
bucket. -/
def childInRegion (arena : Arena α) (parent q : Nat) : Option (Nat × Arena α) := do
  let node ← arena[parent]?
  match ← seek q arena arena.patience none node.content.child? with
  | .taken id => return (id, arena)
  | .gap previous next =>
    let id := arena.size
    let arena : Arena α := arena.push ⟨q, next, .leaf []⟩
    let arena ← match previous with
      | some before => arena.change before fun node => { node with sibling := some id }
      | none =>
        arena.change parent fun node => { node with content := node.content.withChild (some id) }
    return (id, arena)

/-- Looks for a node with exactly the given region from `cursor` on. -/
def find (q : Nat) (arena : Arena α) : (steps : Nat) → (cursor : Option Nat) → Option (Option Nat)
  | _, none => some none
  | 0, some _ => none
  | steps + 1, some id => do
    let node ← arena[id]?
    if node.region = q then return some id else find q arena steps node.sibling

-- ---------------------------------------------------------------------------
-- Passes
-- ---------------------------------------------------------------------------

variable [Scalar α]

mutual

/-- Whether something retained at a node or below it weakly dominates the point. A slot that does
is credited. -/
def cover (point : List α) : (steps : Nat) → Arena α → (id : Nat) → Option (Bool × Arena α)
  | 0, _, _ => none
  | steps + 1, arena, id => do
    let node ← arena[id]?
    match node.content with
    | .leaf slots =>
      match coverSlots point slots with
      | some slots => return (true, arena.setIfInBounds id { node with content := .leaf slots })
      | none => return (false, arena)
    | .branch pivot live child =>
      if live && weaklyDominates pivot.vector point then return (true, arena)
      else coverAlong point (region pivot.vector point) steps arena child

/-- The same from `cursor` on, in the siblings whose region is a subset of the point's own. -/
def coverAlong (point : List α) (q : Nat) :
    (steps : Nat) → Arena α → (cursor : Option Nat) → Option (Bool × Arena α)
  | _, arena, none => some (false, arena)
  | 0, _, some _ => none
  | steps + 1, arena, some id => do
    let node ← arena[id]?
    if isSubregion node.region q then
      let (covered, arena) ← cover point steps arena id
      if covered then return (true, arena) else coverAlong point q steps arena node.sibling
    else coverAlong point q steps arena node.sibling

end

mutual

/-- Removes every entry at a node or below it that the point dominates. `own` says that the node
lies on the way to the point's own bucket. -/
def evict (point : List α) (own : Bool) :
    (steps : Nat) → Eviction α → Arena α → (id : Nat) → Option (Eviction α × Arena α)
  | 0, _, _, _ => none
  | steps + 1, e, arena, id => do
    let node ← arena[id]?
    match node.content with
    | .leaf slots =>
      let (slots, e) := evictSlots point own slots e
      return (e, arena.setIfInBounds id { node with content := .leaf slots })
    | .branch pivot live child =>
      let beaten := live && dominates point pivot.vector
      let e := if beaten then { e with gone := pivot.solution :: e.gone } else e
      let arena : Arena α :=
        arena.setIfInBounds id { node with content := .branch pivot (live && !beaten) child }
      evictAlong point (region pivot.vector point) own steps e arena child

/-- The same from `cursor` on, in the siblings whose region is a superset of the point's own. -/
def evictAlong (point : List α) (q : Nat) (own : Bool) :
    (steps : Nat) → Eviction α → Arena α → (cursor : Option Nat) → Option (Eviction α × Arena α)
  | _, e, arena, none => some (e, arena)
  | 0, _, _, some _ => none
  | steps + 1, e, arena, some id => do
    let node ← arena[id]?
    if isSubregion q node.region then
      let (e, arena) ← evict point (own && node.region == q) steps e arena id
      evictAlong point q own steps e arena node.sibling
    else evictAlong point q own steps e arena node.sibling

end

/-- The bucket below a node that a vector belongs to. -/
def descend (vector : List α) : (steps : Nat) → Arena α → (id : Nat) → Option (Nat × Arena α)
  | 0, _, _ => none
  | steps + 1, arena, id => do
    let node ← arena[id]?
    match node.content with
    | .leaf _ => return (id, arena)
    | .branch pivot _ _ =>
      let (next, arena) ← arena.childInRegion id (region pivot.vector vector)
      descend vector steps arena next

/-- Removes the entry of a solution that is stored with the given vector at a node or below it. -/
def detach (solution : Permutation) (vector : List α) :
    (steps : Nat) → Arena α → (id : Nat) → Option (Arena α)
  | 0, _, _ => none
  | steps + 1, arena, id => do
    let node ← arena[id]?
    match node.content with
    | .leaf slots =>
      let slots := slots.filter (·.solution ≠ solution)
      return arena.setIfInBounds id { node with content := .leaf slots }
    | .branch pivot live child =>
      if live && pivot.solution = solution then
        return arena.setIfInBounds id { node with content := .branch pivot false child }
      else
        match ← find (region pivot.vector vector) arena arena.patience child with
        | none => return arena
        | some next => detach solution vector steps arena next

end Arena

-- ---------------------------------------------------------------------------
-- The archive
-- ---------------------------------------------------------------------------

/-- An archive over an arena. The root is node 0. -/
structure LinkedArchive (α : Type) where
  dimensions : Nat
  capacity : Nat
  arena : Arena α
  retained : List (Entry α)
  ideal : List α

namespace LinkedArchive

variable [Scalar α]

/-- An archive for 1 to 64 objectives whose buckets split above `capacity` entries. -/
def empty (dimensions capacity : Nat) : Except Breach (LinkedArchive α) :=
  if dimensions = 0 ∨ 64 < dimensions then .error .archiveDimensions
  else if capacity = 0 then .error .leafCapacity
  else .ok {
    dimensions, capacity
    arena := #[⟨0, none, .leaf []⟩]
    retained := []
    ideal := List.replicate dimensions Scalar.negInf }

/-- Number of retained entries. -/
def size (a : LinkedArchive α) : Nat := a.retained.length

/-- The retained entry of a solution. -/
def find? (a : LinkedArchive α) (solution : Permutation) : Option (Entry α) :=
  a.retained.find? (·.solution = solution)

def contains (a : LinkedArchive α) (solution : Permutation) : Bool := (a.find? solution).isSome

/-- The retained entries, node by node. -/
def entries (a : LinkedArchive α) : List (Entry α) :=
  a.arena.toList.flatMap (·.content.entries)

/-- Strikes solutions off the list of what is retained. -/
def forget (a : LinkedArchive α) (gone : List Permutation) : LinkedArchive α :=
  { a with retained := a.retained.filter (·.solution ∉ gone) }

/-- Raises the ideal point. -/
def raiseIdeal (a : LinkedArchive α) (vector : List α) : LinkedArchive α :=
  { a with ideal := List.zipWith Scalar.larger a.ideal vector }

/-- Turns a bucket into a branch at its narrowest entry. Children that are overfull are split in
turn. -/
def split : (steps : Nat) → LinkedArchive α → (id : Nat) → Option (LinkedArchive α)
  | 0, _, _ => none
  | steps + 1, a, id => do
    let node ← a.arena[id]?
    match node.content with
    | .branch .. => return a
    | .leaf slots =>
      let (kept, removed) := selectPivot (fun s : Slot α => s.vector) slots
      let a := a.forget (removed.map (·.solution))
      match kept with
      | [] => return { a with arena := a.arena.setIfInBounds id { node with content := .leaf [] } }
      | pivot :: others =>
        -- the last of the others takes the place that the pivot leaves
        let others := others.getLast?.toList ++ others.dropLast
        let groups := others.foldl
          (fun groups s => addToGroup (region pivot.vector s.vector) s groups) []
        let (head, oversized, arena) := a.arena.pushBuckets a.capacity groups none []
        let branch := { node with content := .branch pivot true head }
        oversized.foldlM (split steps) { a with arena := arena.setIfInBounds id branch }

/-- Puts a slot into a bucket, which is split if that makes it overfull. Every split leaves one slot
less to a bucket, so their number bounds the nesting. -/
def fill (a : LinkedArchive α) (slot : Slot α) (id : Nat) : Option (LinkedArchive α) := do
  let node ← a.arena[id]?
  match node.content with
  | .branch .. => return a
  | .leaf slots =>
    let slots := slots ++ [slot]
    let a := { a with arena := a.arena.setIfInBounds id { node with content := .leaf slots } }
    if a.capacity < slots.length then a.split slots.length id else return a

/-- Puts a slot into the bucket below a node that it belongs to. -/
def place (steps : Nat) (a : LinkedArchive α) (slot : Slot α) (id : Nat) :
    Option (LinkedArchive α) := do
  let (id, arena) ← a.arena.descend slot.vector steps id
  fill { a with arena } slot id

/-- Removes the entry of a solution. -/
def detach (a : LinkedArchive α) (previous : Entry α) : Option (LinkedArchive α) := do
  let arena ← a.arena.detach previous.solution previous.vector a.arena.patience 0
  return { a with arena }.forget [previous.solution]

/-- Removes what an entry dominates. Answers the slot of the entry if it has not taken the place of
another. -/
def makeRoom (a : LinkedArchive α) (entry : Entry α) :
    Option (Option (Slot α) × LinkedArchive α) := do
  let (e, arena) ← a.arena.evict entry.vector true a.arena.patience ⟨some ⟨entry, 0⟩, []⟩ 0
  return (e.pending, { a with arena }.forget e.gone)

/-- Offers a pair to an archive that does not hold the solution. -/
def offer (a : LinkedArchive α) (entry : Entry α) : Option (Bool × LinkedArchive α) := do
  let (covered, arena) ← a.arena.cover entry.vector a.arena.patience 0
  let a := { a with arena }
  if covered then return (false, a)
  let (pending, a) ← a.makeRoom entry
  let a ← match pending with
    | none => some a
    | some slot => a.place a.arena.patience slot 0
  let a := a.forget [entry.solution]
  return (true, { a with retained := entry :: a.retained })

/-- Offers a solution with its vector. The answer is whether the pair is newly retained: not if
it is weakly dominated by a retained entry, nor if it is retained already. -/
def insert (a : LinkedArchive α) (solution : Permutation) (vector : List α) :
    Option (Except Rejection (Bool × LinkedArchive α)) :=
  match requireVector a.dimensions vector with
  | .error reason => some (.error reason)
  | .ok () => do
    let a := a.raiseIdeal vector
    match a.find? solution with
    | some previous =>
      if Scalar.sameVector previous.vector vector then return .ok (false, a)
      let a ← a.detach previous
      return .ok (← a.offer ⟨solution, vector⟩)
    | none => return .ok (← a.offer ⟨solution, vector⟩)

end LinkedArchive

end SwapSearch.Pareto
