import SwapSearch.Monitor
import SwapSearch.Objective
import SwapSearch.Random.Shuffle
import SwapSearch.Tabu.Memory
import SwapSearch.Tabu.Settings

/-!
# SwapSearch — the walk and its steps

A *walk* moves from solution to solution by exchanging two positions. It knows the
value of the present solution and the gains of all exchanges, and remembers the
best solution it has recorded.

* While some exchange gains, the walk *climbs*: it makes the best one.
* At a local optimum it launches a *burst* of forced swaps. Each is either the best
  pair that is not tabu, or a random pair (*normal*), or a pair drawn among those
  that are not tabu along a temperature ramp (*annealed*). A tabu pair may still be
  taken if it *aspires*, that is, if it would beat the best value.
* A burst ends early as soon as it beats the best value.

The length of a burst starts at a base length, grows by one while the walk keeps
falling back to the same optimum, and is reset when it has reached another one.
After `stagnationAfter` escapes without a new best, a *stagnation jump* draws a
longer burst.

Every change of the solution goes through `Walk.exchange`, which scans the
neighbourhood again and charges the scan, and `trail` lists these exchanges, newest
first. `bursts` lists the launches.

The walk is written over any monad in which it may break off and in which its states can
be looked at. It calls for a look wherever it reads its gain table. A search is a plain
computation, in which nobody looks; one in which the looks are put on record is the same
walk in another monad.
-/

namespace SwapSearch

/-- Computations in which a state can be looked at. A look tells the computation nothing. -/
class MonadLook (σ : Type) (m : Type → Type) where
  look : σ → m Unit

/-- A plain computation lets nobody look. -/
instance {σ : Type} : MonadLook σ (Except Breach) where
  look _ := .ok ()

end SwapSearch

namespace SwapSearch.Tabu

/-- What a walk draws on: the landscape it moves in, the budget it charges, the monitor it
reports to and its random source. -/
structure Context (L μ ρ : Type) where
  landscape : L
  budget : Budget
  monitor : μ
  random : ρ

/-- The launch of a burst: the local optimum it starts from, its length, whether the length was
drawn by a stagnation jump, and how far stagnation has gone, as a fraction. -/
structure Burst (α : Type) where
  optimum : Permutation
  strength : Nat
  jumped : Bool
  ratio : α

structure Walk (L α μ ρ : Type) where
  settings : Settings α
  target : Option α
  context : Context L μ ρ
  current : Permutation
  value : α
  best : Permutation
  bestValue : α
  gains : GainTable α
  memory : Memory
  /-- Counts swaps and the burst steps that found no pair. -/
  clock : Nat
  swaps : Nat
  iterations : Nat
  /-- Escapes since the last new best. -/
  sinceBest : Nat
  /-- Length of the last burst. -/
  strength : Nat
  /-- The walk has climbed since the last burst was launched. -/
  climbed : Bool
  lastOptimum : Permutation
  trail : List (Nat × Nat)
  bursts : List (Burst α)

namespace Walk

variable {L α μ ρ : Type} [Scalar α]

/-- Number of positions. -/
def size (w : Walk L α μ ρ) : Nat := w.current.size

/-- The present value beats the recorded best. -/
def isBetter (w : Walk L α μ ρ) : Bool := Scalar.beats w.value w.bestValue

/-- A gain that would beat the best value. -/
def aspires (w : Walk L α μ ρ) (gain : α) : Bool := Scalar.beats (w.value + gain) w.bestValue

/-- A move that a burst may make under the given tenure. -/
def isEligible (w : Walk L α μ ρ) (tenure : α) (m : Move α) : Bool :=
  w.aspires m.gain || !w.memory.isTabu m.first m.second w.clock tenure

/-- Base length of a burst. -/
def baseStrength (w : Walk L α μ ρ) : Nat := Settings.jumpLength w.settings.jump w.size

-- ---------------------------------------------------------------------------
-- Stopping and recording
-- ---------------------------------------------------------------------------

section Monitored

variable [Monitor μ α]

/-- Asks whether to stop: because the budget is exhausted, because the monitor wishes it, or
because the present value has reached the target. The monitor is not asked once the budget is
exhausted. -/
def stopRequested (w : Walk L α μ ρ) : Bool × Walk L α μ ρ :=
  if w.context.budget.isExhausted then (true, w)
  else
    let (wish, monitor) := Monitor.poll w.context.monitor
    let w := { w with context.monitor := monitor }
    (wish || w.target.any (Scalar.reaches w.value), w)

/-- Records the present solution as the best. -/
def recordBest (w : Walk L α μ ρ) : Walk L α μ ρ :=
  { w with
    best := w.current
    bestValue := w.value
    sinceBest := 0
    context.monitor := Monitor.onBest w.context.monitor w.value }

/-- Records the present solution if it beats the best. -/
def recordIfBetter (w : Walk L α μ ρ) : Walk L α μ ρ := if w.isBetter then w.recordBest else w

-- ---------------------------------------------------------------------------
-- Moving
-- ---------------------------------------------------------------------------

variable [Landscape L α]

/-- Scans the neighbourhood, charges the scan and reports the charge. -/
def refresh (w : Walk L α μ ρ) (lastSwap : Option (Nat × Nat)) :
    Except Breach (Walk L α μ ρ) := do
  let (landscape, gains) ←
    Landscape.scan w.context.landscape w.current.values w.value lastSwap w.gains
  let cost ← Budget.scanCost w.size
  let budget := w.context.budget.charge cost
  let monitor ← Monitor.onCharge w.context.monitor budget
  return { w with gains, context := { w.context with landscape, budget, monitor } }

/-- Exchanges two positions. The value moves by the gain, the pair is remembered, and the
neighbourhood is scanned with the exchange as hint. -/
def exchange (w : Walk L α μ ρ) (i j : Nat) : Except Breach (Walk L α μ ρ) := do
  let clock ← Word.checked (w.clock + 1)
  let swaps ← Word.checked (w.swaps + 1)
  let w := { w with
    value := w.value + w.gains.gain i j
    current := w.current.swap i j
    memory := w.memory.record i j w.clock
    clock, swaps
    trail := (i, j) :: w.trail }
  w.refresh (some (i, j))

/-- Lets a burst step pass without a swap. -/
def skip (w : Walk L α μ ρ) : Except Breach (Walk L α μ ρ) := do
  let clock ← Word.checked (w.clock + 1)
  return { w with clock }

end Monitored

-- ---------------------------------------------------------------------------
-- Choosing
-- ---------------------------------------------------------------------------

section Random

variable [RandomSource ρ]

/-- Draws a tenure, in iterations. -/
def drawTenure (w : Walk L α μ ρ) : Except Breach (α × Walk L α μ ρ) := do
  let (fraction, random) ←
    Random.between w.settings.minTenure w.settings.maxTenure w.context.random
  return (fraction * (w.size : α), { w with context.random := random })

/-- Draws the length of a stagnation jump: a fraction of the size, at least two swaps. -/
def drawJump (w : Walk L α μ ρ) : Except Breach (Nat × Walk L α μ ρ) := do
  let (fraction, random) ←
    Random.between w.settings.minStagnation w.settings.maxStagnation w.context.random
  return (max (Scalar.toWord (fraction * (w.size : α))) 2, { w with context.random := random })

/-- The pair that two draws `i < n` and `j < n - 1` stand for: `j` counts the positions other
than `i`. -/
def pairOfDraws (i j : Nat) : Nat × Nat :=
  let j := if i ≤ j then j + 1 else j
  (min i j, max i j)

/-- Draws a pair of positions. -/
def drawPair (w : Walk L α μ ρ) : (Nat × Nat) × Walk L α μ ρ :=
  let (i, random) := Random.below w.size w.context.random
  let (j, random) := Random.below (w.size - 1) random
  (pairOfDraws i j, { w with context.random := random })

/-- Draws a scalar in `[0, 1)`. -/
def drawUnit (w : Walk L α μ ρ) : α × Walk L α μ ρ :=
  let (u, random) := Random.unit w.context.random
  (u, { w with context.random := random })

/-- Keeps the best eligible move so far: a move no better than it is passed over, any other must
be eligible. -/
def betterEligible (w : Walk L α μ ρ) (tenure : α) (chosen : Option (Move α)) (m : Move α) :
    Option (Move α) :=
  if chosen.any fun c => m.gain ≤ c.gain then chosen
  else if w.isEligible tenure m then some m
  else chosen

/-- The best pair that is not tabu or that aspires. -/
def tabuCandidate (w : Walk L α μ ρ) (tenure : α) : Option (Nat × Nat) :=
  (w.gains.moves.foldl (w.betterEligible tenure) none).map fun m => (m.first, m.second)

/-- Where a gain stands between the largest (0) and the smallest (1) of the candidates. -/
def rank (hi lo gain : α) : α :=
  let span := hi - lo
  if 0 < span then (hi - gain) / span else 0

/-- Draws one of the candidates: the first, in random order, whose rank passes a test at the
given temperature, or any of them if none passes. -/
def metropolisPick (w : Walk L α μ ρ) (candidates : Array (Move α)) (temperature : α) :
    Option (Nat × Nat) × Walk L α μ ρ :=
  if candidates.isEmpty then (none, w)
  else
    let gains := candidates.toList.map (·.gain)
    let hi := gains.foldl Scalar.larger Scalar.negInf
    let lo := gains.foldl Scalar.smaller Scalar.posInf
    let (shuffled, random) := Random.shuffle candidates w.context.random
    let (u, random) := Random.unit random
    let threshold : α := if 0 < u then temperature * Scalar.log (1 / u) else Scalar.posInf
    match shuffled.find? fun m => rank hi lo m.gain < threshold with
    | some m => (some (m.first, m.second), { w with context.random := random })
    | none =>
      let (k, random) := Random.below shuffled.size random
      (shuffled[k]?.map fun m => (m.first, m.second), { w with context.random := random })

section Choosing

variable {m : Type → Type} [Monad m] [MonadLiftT (Except Breach) m] [MonadLook (Walk L α μ ρ) m]

/-- The choice of a normal burst: with probability `directed` the best eligible pair, else a
random one. -/
def directedPickM (w : Walk L α μ ρ) (directed : α) : m (Option (Nat × Nat) × Walk L α μ ρ) := do
  let (tenure, w) ← w.drawTenure
  let (u, w) := w.drawUnit
  if u < directed then
    MonadLook.look w
    return (w.tabuCandidate tenure, w)
  else
    let (pair, w) := w.drawPair
    return (some pair, w)

/-- The choice of an annealed burst: the first pair that aspires, else a draw among the pairs
that are not tabu. -/
def annealedPickM (w : Walk L α μ ρ) (temperature : α) :
    m (Option (Nat × Nat) × Walk L α μ ρ) := do
  let (tenure, w) ← w.drawTenure
  MonadLook.look w
  let moves := w.gains.moves
  match moves.find? fun move => w.aspires move.gain with
  | some move => return (some (move.first, move.second), w)
  | none =>
    let candidates := moves.filter fun move =>
      !w.memory.isTabu move.first move.second w.clock tenure
    return w.metropolisPick candidates.toArray temperature

end Choosing

-- ---------------------------------------------------------------------------
-- Bursts
-- ---------------------------------------------------------------------------

variable [Monitor μ α] [Landscape L α]

section Bursts

variable {m : Type → Type} [Monad m] [MonadLiftT (Except Breach) m] [MonadLook (Walk L α μ ρ) m]

/-- Exchanges two positions, for which it reads a gain. -/
def exchangeM (w : Walk L α μ ρ) (i j : Nat) : m (Walk L α μ ρ) := do
  MonadLook.look w
  w.exchange i j

/-- Makes the chosen swap, or lets the step pass. -/
def followM (w : Walk L α μ ρ) : Option (Nat × Nat) → m (Walk L α μ ρ)
  | some (i, j) => w.exchangeM i j
  | none => w.skip

/-- At most `steps` swaps, each chosen at a temperature that `cool` lowers from step to step. -/
def burstM (pick : α → Walk L α μ ρ → m (Option (Nat × Nat) × Walk L α μ ρ)) (cool : α → α) :
    (steps : Nat) → (temperature : α) → Walk L α μ ρ → m (Walk L α μ ρ)
  | 0, _, w => return w
  | steps + 1, temperature, w => do
    let (stop, w) := w.stopRequested
    if stop then return w
    let (choice, w) ← pick temperature w
    let w ← w.followM choice
    if choice.isSome && w.isBetter then return w
    burstM pick cool steps (cool temperature) w

/-- The natural logarithm of two. -/
def ln2 : α := 0.693147180559945309417232121458

/-- Probability of a directed swap: it falls as stagnation goes on, down to its floor. -/
def directedShare (floor ratio : α) : α := Scalar.larger floor (Scalar.exp (-ratio))

/-- At most `steps` swaps, each the best eligible pair or a random one. There is no temperature. -/
def directedBurstM (directed : α) (steps : Nat) (w : Walk L α μ ρ) : m (Walk L α μ ρ) :=
  burstM (fun _ w => w.directedPickM directed) id steps 0 w

/-- At most `steps` swaps along a temperature ramp that falls by the factor `alpha`. -/
def annealedBurstM (alpha : α) (steps : Nat) (temperature : α) (w : Walk L α μ ρ) :
    m (Walk L α μ ρ) :=
  burstM (fun temperature w => w.annealedPickM temperature) (· * alpha) steps temperature w

def runDirectedM (w : Walk L α μ ρ) (strength : Nat) (ratio : α) : m (Walk L α μ ρ) :=
  directedBurstM (directedShare w.settings.minDirected ratio) strength w

/-- The ramp ends at the least temperature and starts the higher the further stagnation has
gone. -/
def runAnnealedM (w : Walk L α μ ρ) (strength : Nat) (ratio : α) : m (Walk L α μ ρ) :=
  let cold := w.settings.minTemperature
  let hot := cold + ratio / ln2
  let steps := (strength : α) * Scalar.larger ratio 1
  let alpha := Scalar.pow (cold / hot) (1 / steps)
  annealedBurstM alpha (Scalar.toWord steps) hot w

end Bursts

-- ---------------------------------------------------------------------------
-- Iterations
-- ---------------------------------------------------------------------------

/-- What one iteration leads to. -/
inductive Progress (L α μ ρ : Type) where
  | continued (w : Walk L α μ ρ)
  /-- A local optimum, and no perturbation to leave it. -/
  | settled (w : Walk L α μ ρ)

/-- Settles the length of the burst about to be launched, and whether a stagnation jump drew it.
Only normal bursts make such jumps. -/
def settleStrength (w : Walk L α μ ρ) (jumps : Bool) : Except Breach (Bool × Walk L α μ ρ) := do
  let escaped := w.climbed && w.lastOptimum ≠ w.current
  if jumps && w.sinceBest == w.settings.stagnationAfter then
    let (drawn, w) ← { w with sinceBest := 0 }.drawJump
    return (true, { w with strength := max w.strength drawn })
  else if escaped then
    let sinceBest ← Word.checked (w.sinceBest + 1)
    return (false, { w with sinceBest, strength := w.baseStrength })
  else
    let strength ← Word.checked (w.strength + 1)
    return (false, { w with strength })

/-- Remembers the present optimum if the walk climbed to it. -/
def markOptimum (w : Walk L α μ ρ) : Walk L α μ ρ :=
  if w.climbed then { w with lastOptimum := w.current, climbed := false } else w

/-- How far stagnation has gone. -/
def stagnation (w : Walk L α μ ρ) : α := (w.sinceBest : α) / (w.settings.stagnationAfter : α)

section Iterations

variable {m : Type → Type} [Monad m] [MonadLiftT (Except Breach) m] [MonadLook (Walk L α μ ρ) m]

/-- Makes a gaining move. -/
def climbM (w : Walk L α μ ρ) (move : Move α) : m (Walk L α μ ρ) := do
  let w ← w.exchangeM move.first move.second
  return { w.recordIfBetter with climbed := true }

/-- Launches a burst at a local optimum. -/
def launchM (w : Walk L α μ ρ) (annealed : Bool) : m (Walk L α μ ρ) := do
  let (jumped, w) ← w.settleStrength !annealed
  let w := w.markOptimum
  let burst : Burst α :=
    { optimum := w.current, strength := w.strength, jumped, ratio := w.stagnation }
  let w := { w with bursts := burst :: w.bursts }
  let w ← if annealed then w.runAnnealedM burst.strength burst.ratio
    else w.runDirectedM burst.strength burst.ratio
  return w.recordIfBetter

/-- Climbs if some exchange gains, else perturbs. -/
def iterateM (w : Walk L α μ ρ) : m (Progress L α μ ρ) := do
  let w := { w with iterations := w.iterations + 1 }
  MonadLook.look w
  match w.gains.bestMove.filter (0 < ·.gain) with
  | some move => return .continued (← w.climbM move)
  | none =>
    match w.settings.perturbation with
    | .disabled => return .settled w
    | .normal => return .continued (← w.launchM false)
    | .annealed => return .continued (← w.launchM true)

/-- Iterates, at most `limit` times, until a stop is requested or the walk settles. -/
def runM : (limit : Nat) → Walk L α μ ρ → m (Walk L α μ ρ)
  | 0, w => return w
  | limit + 1, w => do
    let (stop, w) := w.stopRequested
    if stop then return w
    match ← w.iterateM with
    | .continued w => runM limit w
    | .settled w => return w

end Iterations

-- ---------------------------------------------------------------------------
-- Plain computations
-- ---------------------------------------------------------------------------

def directedPick (w : Walk L α μ ρ) (directed : α) :
    Except Breach (Option (Nat × Nat) × Walk L α μ ρ) := w.directedPickM directed

def annealedPick (w : Walk L α μ ρ) (temperature : α) :
    Except Breach (Option (Nat × Nat) × Walk L α μ ρ) := w.annealedPickM temperature

def follow (w : Walk L α μ ρ) (choice : Option (Nat × Nat)) : Except Breach (Walk L α μ ρ) :=
  w.followM choice

def directedBurst (directed : α) (steps : Nat) (w : Walk L α μ ρ) : Except Breach (Walk L α μ ρ) :=
  w.directedBurstM directed steps

def annealedBurst (alpha : α) (steps : Nat) (temperature : α) (w : Walk L α μ ρ) :
    Except Breach (Walk L α μ ρ) := w.annealedBurstM alpha steps temperature

def runDirected (w : Walk L α μ ρ) (strength : Nat) (ratio : α) : Except Breach (Walk L α μ ρ) :=
  w.runDirectedM strength ratio

def runAnnealed (w : Walk L α μ ρ) (strength : Nat) (ratio : α) : Except Breach (Walk L α μ ρ) :=
  w.runAnnealedM strength ratio

def climb (w : Walk L α μ ρ) (move : Move α) : Except Breach (Walk L α μ ρ) := w.climbM move

def launch (w : Walk L α μ ρ) (annealed : Bool) : Except Breach (Walk L α μ ρ) :=
  w.launchM annealed

def iterate (w : Walk L α μ ρ) : Except Breach (Progress L α μ ρ) := w.iterateM

def run (limit : Nat) (w : Walk L α μ ρ) : Except Breach (Walk L α μ ρ) := w.runM limit

end Random

end Walk

end SwapSearch.Tabu
