import SwapSearch.Objective
import SwapSearch.Permutation
import SwapSearch.Proofs.GainTable

/-!
# SwapSearch — what a search relies on

A search asks a landscape for the gains of one solution after the other. The first
scan gets a table of the right size and no hint; every later one gets the table and
the cache the scan before has left, and the exchange that was made in between.
`Scanned` are the situations such calls lead to. A landscape *honours its gains* if,
in every one of them, the gain of a pair is the value of the neighbour minus the
value of the solution.

Nothing is asked of a scan that fails, nor of a scan with a wrong value or a wrong
hint: a search has to keep its own side.

## Results

* `honoursGains_of_scan`      — for an objective, two conditions on single scans.
* `honoursGains_ofEvaluation` — an objective known by its values honours its gains.
-/

namespace SwapSearch

/-- What succeeds in two steps has succeeded in each. -/
theorem exists_of_bind_ok {ε β γ : Type} {x : Except ε β} {f : β → Except ε γ} {c : γ}
    (h : (x >>= f) = .ok c) : ∃ b, x = .ok b ∧ f b = .ok c := by
  cases x with
  | error e => exact nomatch h
  | ok b => exact ⟨b, rfl, h⟩

/-- What has succeeded, if something is known of its result. -/
theorem exists_of_toOption_map {ε β γ : Type} {x : Except ε β} {f : β → γ} {c : γ}
    (h : x.toOption.map f = some c) : ∃ b, x = .ok b ∧ f b = c := by
  cases x with
  | error e => exact nomatch h
  | ok b => exact ⟨b, rfl, Option.some.inj h⟩

theorem GainTable.size_of_allocate {α : Type} [Scalar α] {n : Nat} {t : GainTable α}
    (h : allocate n = .ok t) : t.size = n := by
  obtain ⟨count, -, h⟩ := exists_of_bind_ok h
  obtain ⟨-, -, h⟩ := exists_of_bind_ok h
  obtain rfl := Except.ok.inj h
  rfl

variable {L α : Type} [Landscape L α]

/-- Where the scans of a search lead that starts with the landscape `l₀`, when `f` are the
values. -/
inductive Scanned (f : Permutation → α) (l₀ : L) : L → Permutation → GainTable α → Prop
  | first {l : L} {p : Permutation} {blank gains : GainTable α}
      (hSize : p.size = Landscape.size l₀) (hBlank : blank.size = p.size)
      (hScan : Landscape.scan l₀ p.values (f p) none blank = .ok (l, gains)) :
      Scanned f l₀ l p gains
  | next {l l' : L} {p : Permutation} {i j : Nat} {gains gains' : GainTable α}
      (h : Scanned f l₀ l p gains) (hij : i < j) (hj : j < p.size)
      (hScan : Landscape.scan l (p.swap i j).values (f (p.swap i j)) (some (i, j)) gains =
        .ok (l', gains')) :
      Scanned f l₀ l' (p.swap i j) gains'

theorem Scanned.size_eq {f : Permutation → α} {l₀ l : L} {p : Permutation}
    {gains : GainTable α} (h : Scanned f l₀ l p gains) : p.size = Landscape.size l₀ := by
  induction h with
  | first hSize _ _ => exact hSize
  | next _ _ _ _ ih => exact (Permutation.size_swap ..).trans ih

/-- An objective remembers nothing between scans. -/
theorem scan_objective {o l : Objective α} {p : Array Nat} {value : α}
    {hint : Option (Nat × Nat)} {table gains : GainTable α}
    (h : Landscape.scan o p value hint table = .ok (l, gains)) :
    l = o ∧ o.scan p value hint table = .ok gains := by
  obtain ⟨gains', hScan, hPair⟩ := exists_of_bind_ok h
  obtain ⟨rfl, rfl⟩ := Prod.mk.inj (Except.ok.inj hPair)
  exact ⟨rfl, hScan⟩

variable [Scalar α]

/-- Every cell is the value of the neighbour minus the value of the solution. -/
def TrueGains (f : Permutation → α) (p : Permutation) (gains : GainTable α) : Prop :=
  ∀ i j, i < j → j < p.size → gains.gain i j = f (p.swap i j) - f p

/-- The landscape evaluates to `f`, and its scans keep the gains true. -/
structure HonoursGains (f : Permutation → α) (l₀ : L) : Prop where
  evaluate : ∀ p : Permutation, p.size = Landscape.size l₀ →
    Landscape.evaluate l₀ p.values = .ok (f p)
  size : ∀ {l p gains}, Scanned f l₀ l p gains → gains.size = p.size
  gains : ∀ {l p gains}, Scanned f l₀ l p gains → TrueGains f p gains

-- ---------------------------------------------------------------------------
-- Objectives
-- ---------------------------------------------------------------------------

/-- An objective honours its gains if a scan without a hint makes them true and a scan with a hint
keeps them so. -/
theorem honoursGains_of_scan {f : Permutation → α} {o : Objective α}
    (hEvaluate : ∀ p : Permutation, p.size = o.size → o.evaluate p.values = .ok (f p))
    (hFirst : ∀ (p : Permutation) (blank gains : GainTable α), p.size = o.size →
      blank.size = p.size → o.scan p.values (f p) none blank = .ok gains →
      gains.size = p.size ∧ TrueGains f p gains)
    (hNext : ∀ (p : Permutation) (i j : Nat) (gains gains' : GainTable α), p.size = o.size →
      i < j → j < p.size → gains.size = p.size → TrueGains f p gains →
      o.scan (p.swap i j).values (f (p.swap i j)) (some (i, j)) gains = .ok gains' →
      gains'.size = p.size ∧ TrueGains f (p.swap i j) gains') :
    HonoursGains f o := by
  have hScanned : ∀ {l p gains}, Scanned f o l p gains →
      l = o ∧ gains.size = p.size ∧ TrueGains f p gains := by
    intro l p gains h
    induction h with
    | first hSize hBlank hScan =>
      obtain ⟨rfl, hScan⟩ := scan_objective hScan
      exact ⟨rfl, hFirst _ _ _ hSize hBlank hScan⟩
    | @next l l' p i j gains gains' h hij hj hScan ih =>
      obtain ⟨rfl, hTable, hGains⟩ := ih
      obtain ⟨rfl, hScan⟩ := scan_objective hScan
      obtain ⟨hTable', hGains'⟩ := hNext p i j gains gains' h.size_eq hij hj hTable hGains hScan
      exact ⟨rfl, hTable'.trans (Permutation.size_swap ..).symm, hGains'⟩
  exact ⟨hEvaluate, fun h => (hScanned h).2.1, fun h => (hScanned h).2.2⟩

/-- A full scan fills any table with the values of the neighbours, less the value passed in. -/
theorem fullScan_fills {n : Nat} {evaluate : Array Nat → Except Breach α}
    {f : Permutation → α}
    (hEvaluate : ∀ p : Permutation, p.size = n → evaluate p.values = .ok (f p))
    {p : Permutation} (hSize : p.size = n) (value : α) (hint : Option (Nat × Nat))
    {table : GainTable α} (hTable : table.size = p.size) :
    ∃ gains, Objective.fullScan evaluate p.values value hint table = .ok gains ∧
      gains.size = p.size ∧
      ∀ i j, i < j → j < p.size → gains.gain i j = f (p.swap i j) - value := by
  have hStep : ∀ t : GainTable α, p.size ≤ t.size → ∀ i j, i < j → j < p.size →
      (do
        let neighbour ← evaluate (p.values.swapIfInBounds i j)
        t.put? i j (neighbour - value)) = .ok (t.put i j (f (p.swap i j) - value)) := by
    intro t ht i j hij hj
    have hNeighbour : evaluate (p.values.swapIfInBounds i j) = .ok (f (p.swap i j)) :=
      hEvaluate (p.swap i j) ((Permutation.size_swap p i j).trans hSize)
    rw [hNeighbour]
    exact GainTable.put?_of_lt hij (by omega) _
  obtain ⟨gains, hScan, hSize', hGains⟩ := GainTable.fill_swapPairs
    (fun i j _ => f (p.swap i j) - value) hStep (Nat.le_of_eq hTable.symm)
  exact ⟨gains, hScan, hSize'.trans hTable, hGains⟩

/-- A full scan fills any table with true gains. -/
theorem fullScan_trueGains {n : Nat} {evaluate : Array Nat → Except Breach α}
    {f : Permutation → α}
    (hEvaluate : ∀ p : Permutation, p.size = n → evaluate p.values = .ok (f p))
    {p : Permutation} (hSize : p.size = n) (hint : Option (Nat × Nat)) {table : GainTable α}
    (hTable : table.size = p.size) :
    ∃ gains, Objective.fullScan evaluate p.values (f p) hint table = .ok gains ∧
      gains.size = p.size ∧ TrueGains f p gains :=
  fullScan_fills hEvaluate hSize (f p) hint hTable

/-- An objective known by its values honours its gains. -/
theorem honoursGains_ofEvaluation {n : Nat} {evaluate : Array Nat → Except Breach α}
    {f : Permutation → α}
    (hEvaluate : ∀ p : Permutation, p.size = n → evaluate p.values = .ok (f p)) :
    HonoursGains f (Objective.ofEvaluation n evaluate) := by
  refine honoursGains_of_scan hEvaluate ?_ ?_
  · intro p blank gains hSize hBlank hScan
    obtain ⟨gains', hScan', hFilled⟩ := fullScan_trueGains hEvaluate hSize none hBlank
    obtain rfl := Except.ok.inj (hScan'.symm.trans hScan)
    exact hFilled
  · intro p i j gains gains' hSize _ _ hTable _ hScan
    have hSize' : (p.swap i j).size = p.size := Permutation.size_swap p i j
    obtain ⟨gains'', hScan', hTable', hGains⟩ := fullScan_trueGains hEvaluate
      (hSize'.trans hSize) (some (i, j)) (hTable.trans hSize'.symm)
    obtain rfl := Except.ok.inj (hScan'.symm.trans hScan)
    exact ⟨hTable'.trans hSize', hGains⟩

end SwapSearch
