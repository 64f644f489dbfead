import SwapSearch.Scalar
import SwapSearch.Word

/-!
# SwapSearch — Pareto dominance

Objective vectors are compared componentwise, larger being better. One vector
*dominates* another if it is nowhere worse and somewhere better, and *weakly
dominates* it if it is nowhere worse. Vectors of different lengths are compared
on the components they share.

The *region* of a point relative to a reference collects the components in which
the point is no better than the reference, as the set bits of a number. A point
can only be weakly dominated by points whose region is a subset of its own, which
is what lets an archive skip whole subtrees.
-/

namespace SwapSearch.Pareto

variable {α : Type} [Scalar α]

/-- Outcome of comparing two vectors: which of them dominates. -/
inductive Dominance where
  | left
  | right
  | equal
  | neither
  deriving DecidableEq, Repr

/-- `a` is better than `b` in some component. -/
def betterSomewhere (a b : List α) : Bool := (a.zip b).any fun (x, y) => y < x

/-- Which of two vectors dominates the other. -/
def dominance (a b : List α) : Dominance :=
  match betterSomewhere a b, betterSomewhere b a with
  | true, false => .left
  | false, true => .right
  | false, false => .equal
  | true, true => .neither

/-- `a` is nowhere worse than `b` and somewhere better. -/
def dominates (a b : List α) : Bool := dominance a b == .left

/-- `a` is at least as good as `b` in every component. -/
def weaklyDominates (a b : List α) : Bool := (a.zip b).all fun (x, y) => y ≤ x

-- ---------------------------------------------------------------------------
-- Regions
-- ---------------------------------------------------------------------------

/-- Bit `k` is set if and only if component `k` of the point is at most that of the reference. -/
def region : (reference point : List α) → Nat
  | r :: rs, p :: ps => (if p ≤ r then 1 else 0) + 2 * region rs ps
  | _, _ => 0

/-- Sets bit `k` of the mask if component `k` of the point is at most that of the reference. -/
def markComponent (mask : Nat) : (α × α) × Nat → Except Breach Nat
  | ((p, r), k) => if p ≤ r then (mask ||| ·) <$> Word.bit k else .ok mask

/-- The region as a 64-bit word, put together bit by bit. It holds the regions of up to 64
components. -/
def regionWord (reference point : List α) : Except Breach Nat :=
  (point.zip reference).zipIdx.foldlM markComponent 0

/-- Every bit of `m` is set in `q`. -/
def isSubregion (m q : Nat) : Bool := m &&& q == m

-- ---------------------------------------------------------------------------
-- Choosing a pivot
-- ---------------------------------------------------------------------------

/-- Distance between the largest and the smallest component. -/
def span (v : List α) : α :=
  v.foldl Scalar.larger Scalar.negInf - v.foldl Scalar.smaller Scalar.posInf

variable {β : Type} (vector : β → List α)

/-- Some other item dominates `v`, or an earlier one than position `i` equals it. -/
def isRedundant (items : List β) (i : Nat) (v : List α) : Bool :=
  items.zipIdx.any fun (other, j) =>
    j ≠ i &&
      match dominance (vector other) v with
      | .left => true
      | .equal => j < i
      | _ => false

/-- The position of the first item with the smallest span. -/
def narrowest (items : List β) : Nat :=
  match items.zipIdx with
  | [] => 0
  | first :: rest =>
    (rest.foldl (fun best item =>
      if span (vector item.1) < span (vector best.1) then item else best) first).2

/-- Exchanges the first item with the one at position `k`. -/
def exchangeFirst (items : List β) (k : Nat) : List β :=
  (items.toArray.swapIfInBounds 0 k).toList

/-- Splits off the redundant items and brings the pivot, the item with the smallest span, to the
front of the others. -/
def selectPivot (items : List β) : List β × List β :=
  let (removed, kept) := items.zipIdx.partition fun (item, i) =>
    isRedundant vector items i (vector item)
  let kept := kept.map (·.1)
  (exchangeFirst kept (narrowest vector kept), removed.map (·.1))

end SwapSearch.Pareto
