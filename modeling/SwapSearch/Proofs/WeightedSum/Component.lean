import SwapSearch.Proofs.Assignment.Scan
import SwapSearch.Proofs.Tabu.Contract

/-!
# SwapSearch — the components of a weighted sum

A weighted sum is made of assignment instances and of objectives known only by their
values. In exact arithmetic both have a value for every solution, and both keep a
table of true gains: a scan without a hint makes any table true, and a scan with a
hint carries a true table across the exchange that it names. An assignment instance
patches the table for that, the other kind fills it anew.

## Results

* `Component.evaluate_eq`    — a component evaluates to its value.
* `Component.scan_trueGains` — what a scan does to the table, with a hint or without.
-/

namespace SwapSearch

-- ---------------------------------------------------------------------------
-- Exchanges
-- ---------------------------------------------------------------------------

/-- The order in which two positions are named does not matter. -/
theorem Permutation.swap_comm {p : Permutation} {i j : Nat} (hi : i < p.size) (hj : j < p.size) :
    p.swap i j = p.swap j i := by
  have hi' : i < p.values.size := hi
  have hj' : j < p.values.size := hj
  have hValues : p.values.swapIfInBounds i j = p.values.swapIfInBounds j i := by
    rw [Array.swapIfInBounds, Array.swapIfInBounds, dif_pos hi', dif_pos hj', dif_pos hj',
      dif_pos hi', Array.swap_comm]
  unfold swap
  congr 1

/-- The exchange of two different positions leads from one solution to the next. -/
structure Exchanged (p : Permutation) (pair : Nat × Nat) (p' : Permutation) : Prop where
  ne : pair.1 ≠ pair.2
  first : pair.1 < p.size
  second : pair.2 < p.size
  eq : p' = p.swap pair.1 pair.2

instance (p : Permutation) (pair : Nat × Nat) (p' : Permutation) :
    Decidable (Exchanged p pair p') :=
  decidable_of_iff (pair.1 ≠ pair.2 ∧ pair.1 < p.size ∧ pair.2 < p.size ∧
      p' = p.swap pair.1 pair.2)
    ⟨fun h => ⟨h.1, h.2.1, h.2.2.1, h.2.2.2⟩, fun h => ⟨h.1, h.2, h.3, h.4⟩⟩

variable {α : Type}

/-- A true gain can be read with the positions in either order. -/
theorem TrueGains.gain_eq [Scalar α] {f : Permutation → α} {p : Permutation}
    {gains : GainTable α} (h : TrueGains f p gains) {i j : Nat} (hNe : i ≠ j) (hi : i < p.size)
    (hj : j < p.size) : gains.gain i j = f (p.swap i j) - f p := by
  rcases Nat.lt_or_gt_of_ne hNe with hLt | hGt
  · exact h i j hLt hj
  · rw [GainTable.gain_comm, Permutation.swap_comm hi hj]
    exact h j i hGt hi

-- ---------------------------------------------------------------------------
-- Components
-- ---------------------------------------------------------------------------

/-- A summand of a weighted sum: an assignment instance, or an objective known by its values. -/
inductive Component (α : Type) where
  | assignment (q : Assignment) (square : q.Square)
  | evaluation (size : Nat) (f : Array Nat → α)

namespace Component

variable [ExactScalar α]

def size : Component α → Nat
  | assignment q _ => q.size
  | evaluation n _ => n

/-- The objective that runs. -/
def objective : Component α → Objective α
  | assignment q _ => q.toObjective
  | evaluation n f => .ofEvaluation n fun p => .ok (f p)

/-- The value of a solution, without any rounding or overflow. -/
def value : Component α → Permutation → α
  | assignment q _, p => -((Exchange.total q.size q.flowOf (q.distanceOf p.values) : Int) : α)
  | evaluation _ f, p => f p.values

/-- No integer computation about the solution, reached by the exchange `hint`, overflows. -/
def Representable : Component α → Permutation → Option (Nat × Nat) → Prop
  | assignment q _, p, hint => q.Representable p hint
  | evaluation _ _, _, _ => True

instance (k : Component α) (p : Permutation) (hint : Option (Nat × Nat)) :
    Decidable (k.Representable p hint) :=
  match k with
  | assignment q _ => inferInstanceAs (Decidable (q.Representable p hint))
  | evaluation _ _ => inferInstanceAs (Decidable True)

@[simp] theorem size_objective (k : Component α) : k.objective.size = k.size := by
  cases k <;> rfl

theorem evaluate_eq_of_inRange {q : Assignment} (hSquare : q.Square) {p : Permutation}
    (hSize : p.size = q.size) (hRange : (q.costTerm p.values).InRange) :
    (assignment q hSquare : Component α).objective.evaluate p.values =
      .ok ((assignment q hSquare : Component α).value p) := by
  show q.evaluate p.values = _
  have hCost : q.cost p.values = .ok (Exchange.total q.size q.flowOf (q.distanceOf p.values)) :=
    (Assignment.yields_cost hSquare hSize).result_eq hRange
  unfold Assignment.evaluate
  rw [hCost]
  rfl

/-- A component evaluates to its value, at the solution and at its neighbours. -/
theorem evaluate_eq {k : Component α} {p : Permutation} {hint : Option (Nat × Nat)}
    (hSize : p.size = k.size) (hRange : k.Representable p hint) :
    k.objective.evaluate p.values = .ok (k.value p) ∧
      ∀ i j, i < j → j < p.size →
        k.objective.evaluate (p.swap i j).values = .ok (k.value (p.swap i j)) := by
  cases k with
  | assignment q hSquare =>
    refine ⟨evaluate_eq_of_inRange hSquare hSize hRange.cost, fun i j hij hj => ?_⟩
    rw [hSize] at hj
    exact evaluate_eq_of_inRange hSquare ((Permutation.size_swap ..).trans hSize)
      (hRange.neighbour j hj i hij)
  | evaluation n f => exact ⟨rfl, fun _ _ _ _ => rfl⟩

/-- For an assignment instance, true gains are the negated changes of the double sum. -/
theorem trueGains_iff_holdsGains {q : Assignment} (hSquare : q.Square) {p : Permutation}
    (hSize : p.size = q.size) {table : GainTable α} :
    TrueGains (assignment q hSquare : Component α).value p table ↔ q.HoldsGains p table := by
  unfold TrueGains Assignment.HoldsGains
  rw [hSize]
  refine forall_congr' fun i => forall_congr' fun j => forall_congr' fun hij =>
    forall_congr' fun hj => ?_
  have hValue : (assignment q hSquare : Component α).value (p.swap i j) -
      (assignment q hSquare : Component α).value p =
        -((Exchange.change q.size q.flowOf (q.distanceOf p.values) i j : Int) : α) := by
    show -((Exchange.total q.size q.flowOf (q.distanceOf (p.swap i j).values) : Int) : α) -
      -((Exchange.total q.size q.flowOf (q.distanceOf p.values) : Int) : α) = _
    rw [Assignment.distanceOf_swap q (by omega) (by omega),
      ← Exchange.change_eq q.flowOf (q.distanceOf p.values) (by omega) (by omega) hj]
    push_cast
    ring
  rw [hValue]

/-- A scan makes the gains true. With a hint, it relies on the table of the solution before. -/
theorem scan_trueGains {k : Component α} {p : Permutation} {hint : Option (Nat × Nat)}
    {table : GainTable α} (hSize : p.size = k.size) (hTable : table.size = p.size)
    (hRange : k.Representable p hint)
    (hHint : ∀ pair ∈ hint, ∃ before, Exchanged before pair p ∧ TrueGains k.value before table) :
    ∃ table', k.objective.scan p.values (k.value p) hint table = .ok table' ∧
      table'.size = p.size ∧ TrueGains k.value p table' := by
  -- an assignment fills or patches its table; an evaluation always fills it
  cases k with
  | assignment q hSquare =>
    cases hint with
    | none =>
      obtain ⟨table', hScan, hSize', hGains⟩ := Assignment.scan_fill hSquare hSize hRange
        (Nat.le_of_eq (hSize.symm.trans hTable.symm)) ((assignment q hSquare).value p)
      exact ⟨table', hScan, hSize'.trans hTable,
        (trueGains_iff_holdsGains hSquare hSize).mpr hGains⟩
    | some pair =>
      obtain ⟨before, ⟨hNe, hFirst, hSecond, rfl⟩, hTrue⟩ := hHint pair rfl
      have hBefore : before.size = q.size := (Permutation.size_swap ..).symm.trans hSize
      obtain ⟨table', hScan, hSize', hGains⟩ := Assignment.scan_patch hSquare hBefore hNe
        (hBefore ▸ hFirst) (hBefore ▸ hSecond) hRange
        (Nat.le_of_eq (hSize.symm.trans hTable.symm))
        ((trueGains_iff_holdsGains hSquare hBefore).mp hTrue)
        ((assignment q hSquare).value (before.swap pair.1 pair.2))
      exact ⟨table', hScan, hSize'.trans hTable,
        (trueGains_iff_holdsGains hSquare hSize).mpr hGains⟩
  | evaluation n f =>
    have hEvaluate : ∀ p : Permutation, p.size = n →
        (evaluation n f).objective.evaluate p.values = .ok ((evaluation n f).value p) :=
      fun _ _ => rfl
    exact fullScan_trueGains hEvaluate hSize hint hTable

end Component

end SwapSearch
