import SwapSearch.Random.Source

/-!
# SwapSearch — tournaments

Parents are chosen by *tournament*: draw some indices with replacement and keep the
one of largest fitness, the first drawn among equals. One index may be excluded, and
is then never drawn: the draw is made among one index less, and indices from the
excluded one on move up by one.
-/

namespace SwapSearch.Tournament

variable {ρ : Type} [RandomSource ρ] {α : Type} [Graded α]

/-- The contender a draw stands for when one index is excluded. -/
def contender (excluded : Option Nat) (draw : Nat) : Nat :=
  match excluded with
  | some e => if e ≤ draw then draw + 1 else draw
  | none => draw

/-- Number of indices below `size` that may be drawn. -/
def poolSize (size : Nat) (excluded : Option Nat) : Nat :=
  if excluded.any (· < size) then size - 1 else size

/-- Index `j` is strictly fitter than index `i`. -/
def isFitter (fitness : Array α) (i j : Nat) : Bool :=
  match fitness[i]?, fitness[j]? with
  | some x, some y => x < y
  | _, _ => false

/-- Lets `rounds` further drawn contenders challenge the leader. -/
def challenge (fitness : Array α) (pool : Nat) (excluded : Option Nat) :
    (rounds leader : Nat) → ρ → Nat × ρ
  | 0, leader, r => (leader, r)
  | rounds + 1, leader, r =>
    let (draw, r) := Random.below pool r
    let rival := contender excluded draw
    challenge fitness pool excluded rounds
      (if isFitter fitness leader rival then rival else leader) r

/-- The winner among `rounds` draws, at least one. -/
def winner (fitness : Array α) (rounds : Nat) (excluded : Option Nat) (r : ρ) :
    Except Breach (Nat × ρ) :=
  let pool := poolSize fitness.size excluded
  if pool = 0 then .error .emptyPool
  else
    let (draw, r) := Random.below pool r
    .ok (challenge fitness pool excluded (rounds - 1) (contender excluded draw) r)

/-- The winners of two tournaments, of which the second excludes the winner of the first. -/
def parents (fitness : Array α) (rounds : Nat) (r : ρ) : Except Breach ((Nat × Nat) × ρ) := do
  if fitness.size < 2 then .error .loneParent
  let (first, r) ← winner fitness rounds none r
  let (second, r) ← winner fitness rounds (some first) r
  return ((first, second), r)

end SwapSearch.Tournament
