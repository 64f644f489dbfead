import SwapSearch.Memetic.Settings
import SwapSearch.Memetic.Snapshot
import SwapSearch.Monitor

/-!
# SwapSearch — the watch over a run

A run is watched from inside every local search as well as between them. The watch
knows the best value so far, the target and the deadline, and keeps the snapshots.

With a single objective the value of a local search is the fitness, so the watch
follows it from inside; with several it only hears of finished members. The clock is
looked at only when there is a deadline.
-/

namespace SwapSearch.Memetic

structure Watch (α : Type) where
  clock : Clock
  deadline : Option Nat
  target : Option α
  recorder : Recorder α
  best : α
  followsSearch : Bool

namespace Watch

variable {α : Type} [Scalar α]

/-- Starts to watch a run over the given number of objectives. -/
def begin (settings : Settings α) (dimensions : Nat) (clock : Clock) : Watch α :=
  let (deadline, clock) :=
    match settings.timeLimit with
    | none => (none, clock)
    | some limit =>
      let (now, clock) := clock.look
      (some (now + limit), clock)
  { clock, deadline
    target := settings.target
    recorder := .ofPeriod settings.snapshotEvery
    best := Scalar.negInf
    followsSearch := dimensions == 1 }

/-- Raises the best value. -/
def raise (w : Watch α) (value : α) : Watch α := { w with best := Scalar.larger w.best value }

def targetReached (w : Watch α) : Bool := w.target.any (Scalar.reaches w.best)

/-- Looks at the clock, if there is a deadline. -/
def deadlinePassed (w : Watch α) : Bool × Watch α :=
  match w.deadline with
  | none => (false, w)
  | some deadline =>
    let (now, clock) := w.clock.look
    (deadline ≤ now, { w with clock })

instance : Monitor (Watch α) α where
  onCharge w budget := do
    return { w with recorder := ← w.recorder.observe budget.used w.best }
  onBest w value := if w.followsSearch then w.raise value else w
  poll w := if w.targetReached then (true, w) else w.deadlinePassed

end Watch

end SwapSearch.Memetic
