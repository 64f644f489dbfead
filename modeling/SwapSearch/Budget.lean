import SwapSearch.Word

/-!
# SwapSearch — the evaluation budget

Work is counted in evaluations: a full evaluation of one solution costs one unit,
a scan of the swap neighbourhood of `n` positions one unit per pair. A budget
bounds the total work of a run however it is split between the two.

A budget is a ledger. It may be overdrawn by its last charge, since a charge is
made when the work is done; after that it is exhausted, and whoever asks before
working does not charge it again. `charges` lists the charges themselves, newest
first, and `used` is their sum, which stays at the largest word once it got
there.
-/

namespace SwapSearch

structure Budget where
  total : Nat
  used : Nat
  charges : List Nat
  deriving DecidableEq, Repr

namespace Budget

/-- A budget of `total` units, none of them used. -/
def grant (total : Nat) : Budget := ⟨total, 0, []⟩

/-- Number of pairs of `n` positions. -/
def pairCount (n : Nat) : Nat := n * (n - 1) / 2

/-- Units of one scan of the swap neighbourhood of `n` positions. -/
def scanCost (n : Nat) : Except Breach Nat := do
  let ordered ← Word.checked (n * (n - 1))
  return ordered / 2

/-- Charges `units`. -/
def charge (b : Budget) (units : Nat) : Budget :=
  { b with used := Word.saturated (b.used + units), charges := units :: b.charges }

/-- Units left. -/
def remaining (b : Budget) : Nat := b.total - b.used

/-- Everything granted has been used. -/
def isExhausted (b : Budget) : Bool := b.total ≤ b.used

@[simp] theorem total_charge (b : Budget) (units : Nat) : (b.charge units).total = b.total := rfl

end Budget

end SwapSearch
