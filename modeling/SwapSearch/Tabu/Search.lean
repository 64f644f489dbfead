import SwapSearch.Tabu.Walk

/-!
# SwapSearch — the local search

`Search` is a tabu walk with settings that have passed validation, and possibly a
target. `Search.improve` walks from a start solution and returns the best solution
recorded on the way, together with what is left of the resources.

A start that is already stopped, or has no neighbour, is returned as it is, without
a scan and without a charge.
-/

namespace SwapSearch.Tabu

/-- A local search, with valid settings. -/
structure Search (α : Type) [Scalar α] where
  settings : Settings α
  valid : settings.defect? = none
  /-- The walk stops once its present value reaches this. -/
  target : Option α := none

/-- What a local search returns: the best solution recorded and its value, the iterations and
swaps made, the swaps themselves and the bursts launched, both newest first. -/
structure Outcome (α : Type) where
  solution : Permutation
  value : α
  iterations : Nat
  swaps : Nat
  trail : List (Nat × Nat)
  bursts : List (Burst α)

/-- What a walk has achieved. -/
def Walk.outcome {L α μ ρ : Type} (w : Walk L α μ ρ) : Outcome α where
  solution := w.best
  value := w.bestValue
  iterations := w.iterations
  swaps := w.swaps
  trail := w.trail
  bursts := w.bursts

namespace Search

variable {α : Type} [Scalar α]

/-- A search with the given settings, if they are valid. -/
def ofSettings (settings : Settings α) : Except Rejection (Search α) :=
  match h : settings.defect? with
  | none => .ok { settings, valid := h }
  | some defect => .error (.invalidSettings defect)

def withTarget (s : Search α) (target : α) : Search α := { s with target := some target }

variable {L μ ρ : Type} [Landscape L α] [Monitor μ α] [RandomSource ρ]

/-- The walk at its start, before any scan. -/
def begin (s : Search α) (start : Permutation) (value : α) (context : Context L μ ρ) :
    Except Breach (Walk L α μ ρ) := do
  if start.size ≠ Landscape.size context.landscape then .error .solutionSize
  let gains ← GainTable.allocate start.size
  let memory ← Memory.allocate start.size
  return {
    settings := s.settings
    target := s.target
    context := { context with monitor := Monitor.onBest context.monitor value }
    current := start, value
    best := start, bestValue := value
    gains, memory
    clock := 0, swaps := 0, iterations := 0, sinceBest := 0
    strength := Settings.jumpLength s.settings.jump start.size
    climbed := true
    lastOptimum := start
    trail := [], bursts := [] }

section Searching

variable {m : Type → Type} [Monad m] [MonadLiftT (Except Breach) m] [MonadLook (Walk L α μ ρ) m]

/-- Walks from the beginning for at most `limit` iterations. -/
def walkM (limit : Nat) (w : Walk L α μ ρ) : m (Walk L α μ ρ) := do
  if w.size < 2 || limit == 0 then return w
  let (stop, w) := w.stopRequested
  if stop then return w
  let w ← w.refresh none
  w.runM limit

/-- Improves a start solution with a known value for at most `limit` iterations. -/
def improveM (s : Search α) (start : Permutation) (value : α) (limit : Nat)
    (context : Context L μ ρ) : m (Outcome α × Context L μ ρ) := do
  let w ← s.begin start value context
  let w ← walkM limit w
  return (w.outcome, w.context)

end Searching

def walk (limit : Nat) (w : Walk L α μ ρ) : Except Breach (Walk L α μ ρ) := walkM limit w

/-- Improves a start solution, as a plain computation. -/
def improve (s : Search α) (start : Permutation) (value : α) (limit : Nat)
    (context : Context L μ ρ) : Except Breach (Outcome α × Context L μ ρ) :=
  s.improveM start value limit context

end Search

end SwapSearch.Tabu
