import SwapSearch.Budget

/-!
# SwapSearch — monitors and clocks

A *monitor* watches a search from inside. It hears of every charge to the budget
and of every new best value, and is asked whether the search should stop. Like
everything a search touches it is a state, and each call returns the state after
it.

Time is what a `Clock` shows: a sequence of readings in milliseconds, of which
each look consumes one. A search that depends on time is a function of its clock.
-/

namespace SwapSearch

/-- Observer of a search over scalars `α`. -/
class Monitor (μ : Type) (α : outParam Type) where
  /-- The budget was charged. -/
  onCharge : μ → Budget → Except Breach μ
  /-- A local search starts from this value or has found this new best value. -/
  onBest : μ → α → μ
  /-- Whether the search should stop as soon as possible. -/
  poll : μ → Bool × μ

/-- The monitor that records nothing and never stops a search. -/
structure Silent (α : Type) where
  deriving DecidableEq, Repr

instance {α : Type} : Monitor (Silent α) α where
  onCharge m _ := .ok m
  onBest m _ := m
  poll m := (false, m)

/-- A clock: `reading k` is what the `k`-th look shows, in milliseconds, and `looks` counts the
looks so far. -/
structure Clock where
  reading : Nat → Nat
  looks : Nat := 0

namespace Clock

/-- Looks at the clock once. -/
def look (c : Clock) : Nat × Clock := (c.reading c.looks, { c with looks := c.looks + 1 })

/-- The clock never goes back. -/
def Monotone (c : Clock) : Prop := ∀ i j, i ≤ j → c.reading i ≤ c.reading j

/-- A clock that moves on by one millisecond every `period` looks. -/
def ticking (period : Nat) : Clock := { reading := fun k => k / period }

end Clock

/-- Stops once `limit` milliseconds have passed since `start`. -/
structure Stopwatch (α : Type) where
  clock : Clock
  start : Nat
  limit : Nat

namespace Stopwatch

variable {α : Type}

/-- Starts now. -/
def begin (clock : Clock) (limit : Nat) : Stopwatch α :=
  let (now, clock) := clock.look
  ⟨clock, now, limit⟩

/-- Milliseconds since the start. -/
def elapsed (s : Stopwatch α) : Nat × Stopwatch α :=
  let (now, clock) := s.clock.look
  (now - s.start, { s with clock })

instance : Monitor (Stopwatch α) α where
  onCharge s _ := .ok s
  onBest s _ := s
  poll s :=
    let (passed, s) := s.elapsed
    (s.limit ≤ passed, s)

end Stopwatch

end SwapSearch
