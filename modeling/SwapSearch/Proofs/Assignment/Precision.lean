import SwapSearch.Proofs.Assignment.Magnitude
import SwapSearch.Proofs.Scalar.Sums
import SwapSearch.Proofs.Tabu.Frame

/-!
# SwapSearch — a walk through a small instance

A walk never evaluates a solution. It adds the gain of each exchange to its value, and most
gains it only shifts, so in floating point its errors could pile up. In a small instance there
are none: whatever is converted, stored or accumulated is an integer of magnitude at most
`2 ^ 53`, and the sum of two of them, which is again such an integer, is exact.

That the sums stay this small does not follow from the summands, of which there may be any
number. It follows from what they mean. After every exchange the value is minus the cost of the
solution reached, and each gain is minus its swap cost, and these are bounded for all solutions
alike.

The *reckoning* of a walk is the part of it that computes: its solution, value and gains.

## Results

* `reckoning_of_refresh`, `reckoning_of_exchange` — a walk moves as its reckoning does.
* `exists_start`    — evaluating and scanning are exact.
* `Exact.exchange`  — an exchange of an exact reckoning is exact.
* `exact_run`       — any sequence of exchanges.
* `exchanges_exact` — what a walk computes in a small instance.
-/

namespace SwapSearch.Assignment

open Exchange Binary64

-- ---------------------------------------------------------------------------
-- Reckonings
-- ---------------------------------------------------------------------------

/-- The part of a walk that computes. -/
structure Reckoning where
  solution : Permutation
  value : Float
  gains : GainTable Float

/-- The value moves by the gain, and the neighbourhood is scanned with the exchange as hint. -/
def Reckoning.exchange (q : Assignment) (x : Reckoning) (i j : Nat) : Except Breach Reckoning := do
  let solution := x.solution.swap i j
  let value := x.value + x.gains.gain i j
  let gains ← q.scan solution.values value (some (i, j)) x.gains
  return ⟨solution, value, gains⟩

/-- A sequence of exchanges. -/
def Reckoning.run (q : Assignment) (x : Reckoning) (steps : List (Nat × Nat)) :
    Except Breach Reckoning :=
  steps.foldlM (fun x step => x.exchange q step.1 step.2) x

/-- The reckoning of a solution that has just been evaluated and scanned. -/
def Reckoning.start (q : Assignment) (p : Permutation) (table : GainTable Float) :
    Except Breach Reckoning := do
  let value ← q.evaluate p.values
  let gains ← q.scan p.values value none table
  return ⟨p, value, gains⟩

/-- Value and gains are the same numbers, though perhaps not the same zeros. -/
def Agree (q : Assignment) (x y : Reckoning) : Prop :=
  (x.value == y.value) = true ∧
    ∀ i j, i < j → j < q.size → (x.gains.gain i j == y.gains.gain i j) = true

section Walk

open Tabu

variable {μ ρ : Type} [Monitor μ Float] {q : Assignment}
  {w w' : Walk (Objective Float) Float μ ρ}

/-- What a walk computes. -/
def reckoning {L μ ρ : Type} (w : Walk L Float μ ρ) : Reckoning := ⟨w.current, w.value, w.gains⟩

/-- A scan in the instance is a scan of the instance. -/
theorem scan_of_landscape {o o' : Objective Float} {p : Array Nat} {value : Float}
    {hint : Option (Nat × Nat)} {table table' : GainTable Float} (ho : o = q.toObjective)
    (h : Landscape.scan o p value hint table = .ok (o', table')) :
    q.scan p value hint table = .ok table' ∧ o' = q.toObjective := by
  subst ho
  obtain ⟨gains, hScan, hPair⟩ := exists_of_bind_ok h
  obtain ⟨rfl, rfl⟩ := Prod.mk.inj (Except.ok.inj hPair)
  exact ⟨hScan, rfl⟩

/-- A walk whose value has been evaluated starts, with its first scan, as its reckoning does. -/
theorem reckoning_of_refresh (hLandscape : w.context.landscape = q.toObjective)
    (hValue : q.evaluate w.current.values = .ok w.value) (h : w.refresh none = .ok w') :
    Reckoning.start q w.current w.gains = .ok (reckoning w') ∧
      w'.context.landscape = q.toObjective := by
  obtain ⟨landscape, gains, cost, monitor, hScan, -, -, rfl⟩ := Walk.exists_of_refresh h
  obtain ⟨hGains, hLandscape'⟩ := scan_of_landscape hLandscape hScan
  refine ⟨?_, hLandscape'⟩
  unfold Reckoning.start
  rw [hValue]
  dsimp only [bind, Except.bind]
  rw [hGains]
  rfl

/-- A walk makes an exchange as its reckoning does. -/
theorem reckoning_of_exchange {i j : Nat} (hLandscape : w.context.landscape = q.toObjective)
    (h : w.exchange i j = .ok w') :
    (reckoning w).exchange q i j = .ok (reckoning w') ∧
      w'.context.landscape = q.toObjective := by
  obtain ⟨landscape, gains, cost, monitor, hScan, -, -, rfl⟩ := Walk.exists_of_exchange h
  obtain ⟨hGains, hLandscape'⟩ := scan_of_landscape hLandscape hScan
  refine ⟨?_, hLandscape'⟩
  unfold Reckoning.exchange reckoning
  dsimp only
  rw [hGains]
  rfl

theorem reckoning_of_exchanges {steps : List (Nat × Nat)}
    (hLandscape : w.context.landscape = q.toObjective)
    (h : steps.foldlM (fun w step => w.exchange step.1 step.2) w = .ok w') :
    (reckoning w).run q steps = .ok (reckoning w') := by
  induction steps generalizing w with
  | nil =>
    obtain rfl := Except.ok.inj h
    rfl
  | cons step rest ih =>
    rw [List.foldlM_cons] at h
    obtain ⟨next, hExchange, hRest⟩ := exists_of_bind_ok h
    obtain ⟨hStep, hNext⟩ := reckoning_of_exchange hLandscape hExchange
    unfold Reckoning.run
    rw [List.foldlM_cons, hStep]
    exact ih hNext hRest

end Walk

-- ---------------------------------------------------------------------------
-- Exactness
-- ---------------------------------------------------------------------------

/-- The value denotes minus the cost of the solution, and each gain minus its swap cost. These
integers have magnitude at most `2 ^ 53`. -/
structure Exact (q : Assignment) (x : Reckoning) : Prop where
  size_eq : x.solution.size = q.size
  rows_eq : x.gains.size = q.size
  value : ∃ c, q.cost x.solution.values = .ok c ∧ c.natAbs ≤ 2 ^ 53 ∧ Denotes x.value (-c)
  gains : ∀ i j, i < j → j < q.size → ∃ c, q.swapCost x.solution.values i j = .ok c ∧
    c.natAbs ≤ 2 ^ 53 ∧ Denotes (x.gains.gain i j) (-c)

section Exactness

variable {q : Assignment} {p : Permutation} {x y : Reckoning} {i j r s : Nat}

/-- The cost of a solution, over the integers. -/
theorem IsSmall.cost_eq (h : IsSmall q) (hp : p.size = q.size) :
    q.cost p.values = .ok (total q.size q.flowOf (q.distanceOf p.values)) ∧
      (total q.size q.flowOf (q.distanceOf p.values)).natAbs ≤ 2 ^ 53 := by
  obtain ⟨c, hc, hBound⟩ := (h.bounded hp).cost
  obtain rfl := (yields_cost h.toSquare hp).eq_of_ok hc
  exact ⟨hc, hBound⟩

/-- The swap cost of a pair, over the integers. -/
theorem IsSmall.swapCost_eq (h : IsSmall q) (hp : p.size = q.size) (hi : i < q.size)
    (hj : j < q.size) :
    q.swapCost p.values i j = .ok (change q.size q.flowOf (q.distanceOf p.values) i j) ∧
      (change q.size q.flowOf (q.distanceOf p.values) i j).natAbs ≤ 2 ^ 53 := by
  obtain ⟨c, hc, hBound⟩ := (h.bounded hp).swapCost i j hi hj
  obtain rfl := (yields_swapCost h.toSquare hp hi hj).eq_of_ok hc
  exact ⟨hc, hBound⟩

theorem IsSmall.natAbs_shift_le (h : IsSmall q) (hp : p.size = q.size) (hi : i < q.size)
    (hj : j < q.size) (hr : r < q.size) (hs : s < q.size) :
    (shift q.flowOf (q.distanceOf p.values) i j r s).natAbs ≤ 2 ^ 53 := by
  obtain ⟨c, hc, hBound⟩ := (h.bounded hp).shift i j r s hi hj hr hs
  obtain rfl := (yields_swapCostShift h.toSquare hp hi hj hr hs).eq_of_ok hc
  exact hBound

/-- Converting an integer in range and negating it are exact. -/
theorem denotes_neg_intCast {c : Int} (h : c.natAbs ≤ 2 ^ 53) : Denotes (-(c : Float)) (-c) :=
  (denotes_intCast h).neg

theorem Exact.value_denotes (hx : Exact q x) (h : IsSmall q) :
    Denotes x.value (-total q.size q.flowOf (q.distanceOf x.solution.values)) := by
  obtain ⟨c, hc, -, hDenotes⟩ := hx.value
  obtain rfl := Except.ok.inj (hc.symm.trans (h.cost_eq hx.size_eq).1)
  exact hDenotes

theorem Exact.gain_denotes (hx : Exact q x) (h : IsSmall q) (hij : i < j) (hj : j < q.size) :
    Denotes (x.gains.gain i j)
      (-change q.size q.flowOf (q.distanceOf x.solution.values) i j) := by
  obtain ⟨c, hc, -, hDenotes⟩ := hx.gains i j hij hj
  obtain rfl := Except.ok.inj (hc.symm.trans (h.swapCost_eq hx.size_eq (hij.trans hj) hj).1)
  exact hDenotes

/-- It is enough that value and gains denote the right integers: these are in range. -/
theorem IsSmall.exact (h : IsSmall q) (hp : x.solution.size = q.size)
    (hRows : x.gains.size = q.size)
    (hValue : Denotes x.value (-total q.size q.flowOf (q.distanceOf x.solution.values)))
    (hGains : ∀ i j, i < j → j < q.size → Denotes (x.gains.gain i j)
      (-change q.size q.flowOf (q.distanceOf x.solution.values) i j)) : Exact q x := by
  refine ⟨hp, hRows, ?_, fun i j hij hj => ?_⟩
  · obtain ⟨hCost, hBound⟩ := h.cost_eq hp
    exact ⟨_, hCost, hBound, hValue⟩
  · obtain ⟨hCost, hBound⟩ := h.swapCost_eq hp (hij.trans hj) hj
    exact ⟨_, hCost, hBound, hGains i j hij hj⟩

/-- Exact reckonings of one solution agree. -/
theorem Exact.agree (hx : Exact q x) (hy : Exact q y) (h : IsSmall q)
    (hSame : x.solution = y.solution) : Agree q x y := by
  refine ⟨(hx.value_denotes h).beq (hSame ▸ hy.value_denotes h), fun i j hij hj => ?_⟩
  exact (hx.gain_denotes h hij hj).beq (hSame ▸ hy.gain_denotes h hij hj)

-- ---------------------------------------------------------------------------
-- Starting
-- ---------------------------------------------------------------------------

/-- Evaluating and scanning are exact. -/
theorem exists_start (h : IsSmall q) (hp : p.size = q.size) {table : GainTable Float}
    (hRows : table.size = q.size) :
    ∃ x, Reckoning.start q p table = .ok x ∧ x.solution = p ∧ Exact q x := by
  obtain ⟨hCost, hBound⟩ := h.cost_eq hp
  have hRange : Representable q p none := h.representable hp nofun
  obtain ⟨gains, hScan, hSize, hGains⟩ := scan_none_gains h.toSquare hp hRange
    (Nat.le_of_eq hRows.symm)
    (-((total q.size q.flowOf (q.distanceOf p.values) : Int) : Float))
  refine ⟨⟨p, _, gains⟩, ?_, rfl, h.exact hp (hSize.trans hRows) (denotes_neg_intCast hBound)
    fun i j hij hj => ?_⟩
  · unfold Reckoning.start evaluate
    rw [hCost]
    dsimp only [bind, Except.bind, pure, Except.pure]
    rw [hScan]
  · dsimp only
    rw [hGains i j hij hj]
    exact denotes_neg_intCast (h.swapCost_eq hp (hij.trans hj) hj).2

-- ---------------------------------------------------------------------------
-- Exchanging
-- ---------------------------------------------------------------------------

theorem exchanged_comm (b : Nat → Nat → Int) : exchanged i j b = exchanged j i b := by
  funext k l
  unfold exchanged
  rw [Equiv.swap_comm]

/-- The gain of a pair, in whatever order, is what the exchange adds to the value. -/
theorem Exact.gain_denotes_sub (hx : Exact q x) (h : IsSmall q) (hNe : r ≠ s) (hr : r < q.size)
    (hs : s < q.size) : Denotes (x.gains.gain r s)
      (-(total q.size q.flowOf (q.distanceOf (x.solution.swap r s).values) -
        total q.size q.flowOf (q.distanceOf x.solution.values))) := by
  rw [distanceOf_swap q (hx.size_eq ▸ hr) (hx.size_eq ▸ hs)]
  rcases Nat.lt_or_gt_of_ne hNe with hLt | hGt
  · rw [change_eq q.flowOf _ hNe hr hs]
    exact hx.gain_denotes h hLt hs
  · rw [exchanged_comm, change_eq q.flowOf _ hNe.symm hs hr, GainTable.gain_comm]
    exact hx.gain_denotes h hGt hr

/-- What a scan with a hint stores denotes the new swap cost: it converts an integer, or adds one
to what denotes another, and the sum is a swap cost again. -/
theorem Exact.patched_denotes (hx : Exact q x) (h : IsSmall q) (hNe : r ≠ s) (hr : r < q.size)
    (hs : s < q.size) (hij : i < j) (hj : j < q.size) :
    Denotes (patched q (x.solution.swap r s) r s i j (x.gains.gain i j))
      (-change q.size q.flowOf (q.distanceOf (x.solution.swap r s).values) i j) := by
  have hp : (x.solution.swap r s).size = q.size := (Permutation.size_swap ..).trans hx.size_eq
  have hi : i < q.size := hij.trans hj
  have hBound := (h.swapCost_eq hp hi hj).2
  unfold patched
  split
  case isTrue => exact denotes_neg_intCast hBound
  case isFalse hApart =>
    obtain ⟨hir, his, hjr, hjs⟩ : i ≠ r ∧ i ≠ s ∧ j ≠ r ∧ j ≠ s := by
      simpa only [not_or] using hApart
    have hShift := denotes_neg_intCast (h.natAbs_shift_le hp hi hj hr hs)
    have hTaillard :=
      change_exchange q.flowOf (q.distanceOf x.solution.values) hNe hr hs hir his hjr hjs
    rw [← distanceOf_swap q (hx.size_eq ▸ hr) (hx.size_eq ▸ hs)] at hTaillard
    rw [hTaillard, ← Int.natAbs_neg, neg_add] at hBound
    rw [hTaillard, neg_add]
    exact (hx.gain_denotes h hij hj).add hShift hBound

/-- **An exchange of an exact reckoning is exact.** -/
theorem Exact.exchange (hx : Exact q x) (h : IsSmall q) (hNe : r ≠ s) (hr : r < q.size)
    (hs : s < q.size) :
    ∃ y, x.exchange q r s = .ok y ∧ y.solution = x.solution.swap r s ∧ Exact q y := by
  have hp : (x.solution.swap r s).size = q.size := (Permutation.size_swap ..).trans hx.size_eq
  have hRange : Representable q (x.solution.swap r s) (some (r, s)) :=
    h.representable hp fun pair hPair => Option.some.inj hPair ▸ ⟨hr, hs⟩
  -- the table is patched, and the value moves by the gain of the exchange
  obtain ⟨gains, hScan, hSize, hGains⟩ := scan_some_gains h.toSquare hp hNe hr hs hRange
    (Nat.le_of_eq hx.rows_eq.symm) (x.value + x.gains.gain r s)
  refine ⟨⟨x.solution.swap r s, x.value + x.gains.gain r s, gains⟩, ?_, rfl,
    h.exact hp (hSize.trans hx.rows_eq) ?_ fun i j hij hj => ?_⟩
  · unfold Reckoning.exchange
    dsimp only
    rw [hScan]
    rfl
  · have hBound := (h.cost_eq hp).2
    -- the new cost is the old one and the change, both exact, and is itself small
    have hSum : -total q.size q.flowOf (q.distanceOf (x.solution.swap r s).values) =
        -total q.size q.flowOf (q.distanceOf x.solution.values) +
          -(total q.size q.flowOf (q.distanceOf (x.solution.swap r s).values) -
            total q.size q.flowOf (q.distanceOf x.solution.values)) := by ring
    rw [← Int.natAbs_neg, hSum] at hBound
    dsimp only
    rw [hSum]
    exact (hx.value_denotes h).add (hx.gain_denotes_sub h hNe hr hs) hBound
  · dsimp only
    rw [hGains i j hij hj]
    exact hx.patched_denotes h hNe hr hs hij hj

/-- **Any sequence of exchanges is exact.** -/
theorem exact_run {steps : List (Nat × Nat)} (hx : Exact q x) (h : IsSmall q)
    (hSteps : ∀ step ∈ steps, step.1 ≠ step.2 ∧ step.1 < q.size ∧ step.2 < q.size) :
    ∃ y, x.run q steps = .ok y ∧
      y.solution = steps.foldl (fun p step => p.swap step.1 step.2) x.solution ∧ Exact q y := by
  induction steps generalizing x with
  | nil => exact ⟨x, rfl, rfl, hx⟩
  | cons step rest ih =>
    obtain ⟨⟨hNe, hr, hs⟩, hRest⟩ := List.forall_mem_cons.mp hSteps
    obtain ⟨y, hExchange, hSolution, hy⟩ := hx.exchange h hNe hr hs
    obtain ⟨last, hRun, hEnd, hLast⟩ := ih hy hRest
    refine ⟨last, ?_, ?_, hLast⟩
    · unfold Reckoning.run
      rw [List.foldlM_cons, hExchange]
      exact hRun
    · rw [hEnd, hSolution, List.foldl_cons]

end Exactness

-- ---------------------------------------------------------------------------
-- Walks
-- ---------------------------------------------------------------------------

/-- What is computed about the instance is exact. -/
structure Precise (q : Assignment) : Prop where
  /-- About no solution a computation overflows, and no result exceeds `2 ^ 53` in magnitude. -/
  bounded : ∀ p : Permutation, p.size = q.size → Bounded q p
  /-- From any solution, once it is evaluated and scanned, any sequence of exchanges leads to an
  exact reckoning. It agrees with what evaluating and scanning the last solution gives, and it is
  the reckoning of every walk that makes these exchanges. -/
  exchanges : ∀ (p : Permutation) (table : GainTable Float) (steps : List (Nat × Nat)),
    p.size = q.size → table.size = q.size →
    (∀ step ∈ steps, step.1 ≠ step.2 ∧ step.1 < q.size ∧ step.2 < q.size) →
    ∃ first last, Reckoning.start q p table = .ok first ∧ first.run q steps = .ok last ∧
      last.solution = steps.foldl (fun p step => p.swap step.1 step.2) p ∧ Exact q last ∧
      (∀ other : GainTable Float, other.size = q.size →
        ∃ fresh, Reckoning.start q last.solution other = .ok fresh ∧ Agree q last fresh) ∧
      ∀ {μ ρ : Type} [Monitor μ Float] (w scanned w' : Tabu.Walk (Objective Float) Float μ ρ),
        w.context.landscape = q.toObjective → w.current = p → w.gains = table →
        q.evaluate p.values = .ok w.value → w.refresh none = .ok scanned →
        steps.foldlM (fun w step => w.exchange step.1 step.2) scanned = .ok w' →
        reckoning w' = last

/-- **A walk through a small instance is exact.** -/
theorem exchanges_exact {q : Assignment} (h : IsSmall q) : Precise q := by
  refine ⟨fun p hp => h.bounded hp, fun p table steps hp hRows hSteps => ?_⟩
  obtain ⟨first, hStart, hFirst, hExact⟩ := exists_start h hp hRows
  obtain ⟨last, hRun, hEnd, hLast⟩ := exact_run hExact h hSteps
  rw [hFirst] at hEnd
  refine ⟨first, last, hStart, hRun, hEnd, hLast, fun other hOther => ?_, ?_⟩
  · obtain ⟨fresh, hFresh, hSame, hFreshExact⟩ := exists_start h hLast.size_eq hOther
    exact ⟨fresh, hFresh, hLast.agree hFreshExact h hSame.symm⟩
  · rintro μ ρ _ w scanned w' hLandscape rfl rfl hValue hRefresh hExchanges
    obtain ⟨hScanned, hSame⟩ := reckoning_of_refresh hLandscape hValue hRefresh
    obtain rfl := Except.ok.inj (hStart.symm.trans hScanned)
    exact Except.ok.inj ((reckoning_of_exchanges hSame hExchanges).symm.trans hRun)

theorem exchanges_exact_four :
    let q : Assignment :=
      ⟨4, #[1, -5, 2, 7, 0, 3, 8, 1, 4, 4, -2, 9, 6, 1, 3, 5],
        #[2, 1, 7, 3, -9, 0, 4, 4, 5, 8, 1, 6, 2, 3, 7, 1]⟩
    IsSmall q ∧ Precise q := by
  intro q
  have hSmall : IsSmall q := ⟨⟨rfl, rfl⟩, by decide⟩
  exact ⟨hSmall, exchanges_exact hSmall⟩

end SwapSearch.Assignment
