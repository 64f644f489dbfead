import SwapSearch.Random.Shuffle

/-!
# SwapSearch — crossover

Two ways to make a child of two parents of one length.

* *Partially matched*: the child copies the second parent on a segment of positions
  and the first parent elsewhere. What the segment took is exchanged for what it
  displaced, so the child is built from the first parent by exchanges alone.
* *Uniform*: where the parents agree, the child agrees with them. Every other
  position takes the item of a parent chosen by a coin, or of the other parent if
  that item is used already; positions where both are used are filled at the end
  with the unused items in random order.
-/

namespace SwapSearch.Crossover

-- ---------------------------------------------------------------------------
-- Partially matched
-- ---------------------------------------------------------------------------

/-- A child in the making, and the position of every item in it. -/
structure Draft where
  child : Permutation
  position : Array Nat

namespace Draft

/-- The first parent as it is. -/
def ofParent (p : Permutation) : Draft :=
  { child := p
    position := p.values.zipIdx.foldl (fun position (item, i) => position.setIfInBounds item i)
      (Array.replicate p.size 0) }

/-- Brings an item to position `i`, in exchange for the item there. -/
def bring (d : Draft) (i item : Nat) : Draft :=
  let j := d.position.getD item i
  if j = i then d
  else
    let displaced := d.child.values.getD i 0
    { child := d.child.swap i j
      position := (d.position.setIfInBounds displaced j).setIfInBounds item i }

end Draft

/-- The partially matched child, which equals the second parent from `lo` to `hi`. -/
def matched (first second : Permutation) (lo hi : Nat) : Except Breach Permutation :=
  if first.size ≠ second.size then .error .unequalParents
  else if hi < lo ∨ first.size ≤ hi then .error .cutPoints
  else
    let draft := (List.range' lo (hi + 1 - lo)).foldl
      (fun d i => d.bring i (second.values.getD i 0)) (Draft.ofParent first)
    .ok draft.child

variable {ρ : Type} [RandomSource ρ]

/-- Two positions below `n`, drawn independently and put in order. -/
def drawSegment (n : Nat) (r : ρ) : (Nat × Nat) × ρ :=
  let (a, r) := Random.below n r
  let (b, r) := Random.below n r
  ((min a b, max a b), r)

/-- The partially matched child on a random segment. The segment is drawn before the parents are
compared. -/
def randomMatched (first second : Permutation) (r : ρ) : Except Breach Permutation × ρ :=
  if first.isEmpty then (.error .emptyParents, r)
  else
    let ((lo, hi), r) := drawSegment first.size r
    (matched first second lo hi, r)

-- ---------------------------------------------------------------------------
-- Uniform
-- ---------------------------------------------------------------------------

/-- A child with holes, and which items it uses. -/
structure Mosaic where
  slots : Array (Option Nat)
  used : Array Bool

namespace Mosaic

/-- Nothing but holes. -/
def blank (n : Nat) : Mosaic := ⟨Array.replicate n none, Array.replicate n false⟩

def isUsed (m : Mosaic) (item : Nat) : Bool := m.used.getD item false

/-- Puts an item into a position. -/
def lay (m : Mosaic) (i item : Nat) : Mosaic :=
  ⟨m.slots.setIfInBounds i (some item), m.used.setIfInBounds item true⟩

/-- What the parents agree on, given as a list of positions with both items. -/
def agreement (n : Nat) (pairs : List (Nat × Nat × Nat)) : Mosaic :=
  pairs.foldl (fun m (i, x, y) => if x = y then m.lay i x else m) (blank n)

/-- Puts the first unused of two items into a position, if there is one. -/
def layEither (m : Mosaic) (i x y : Nat) : Mosaic :=
  if !m.isUsed x then m.lay i x
  else if !m.isUsed y then m.lay i y
  else m

/-- Goes through the positions where the parents differ. A coin says whose item is preferred. -/
def choose : List (Nat × Nat × Nat) → Mosaic → ρ → Mosaic × ρ
  | [], m, r => (m, r)
  | (i, x, y) :: rest, m, r =>
    if x = y then choose rest m r
    else
      let (heads, r) := Random.coin r
      choose rest (if heads then m.layEither i x y else m.layEither i y x) r

/-- The items not used. -/
def unused (m : Mosaic) : Array Nat := (Array.range m.used.size).filter (!m.isUsed ·)

/-- Fills the holes from left to right. -/
def fill : List (Option Nat) → List Nat → List Nat
  | [], _ => []
  | some item :: rest, items => item :: fill rest items
  | none :: rest, item :: items => item :: fill rest items
  | none :: rest, [] => 0 :: fill rest []

end Mosaic

/-- The positions with the items of both parents. -/
def sideBySide (first second : Permutation) : List (Nat × Nat × Nat) :=
  ((first.toList.zip second.toList).zipIdx).map fun ((x, y), i) => (i, x, y)

/-- The uniform child. -/
def uniform (first second : Permutation) (r : ρ) : Except Breach (Permutation × ρ) := do
  if first.size ≠ second.size then .error .unequalParents
  let pairs := sideBySide first second
  let (mosaic, r) := Mosaic.choose pairs (Mosaic.agreement first.size pairs) r
  let (items, r) := Random.shuffle mosaic.unused r
  let child ← Permutation.ofOperator (Mosaic.fill mosaic.slots.toList items.toList).toArray
  return (child, r)

end SwapSearch.Crossover
