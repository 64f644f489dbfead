import SwapSearch.Proofs.Traversal
import SwapSearch.Proofs.WeightedSum.Component
import SwapSearch.WeightedSum

/-!
# SwapSearch — the cache of a weighted sum

Between two scans a weighted sum keeps the value and the gains of every component at
the solution it was scanned at last. A scan with a hint moves each value by a gain
that the component's table still holds, and only then lets the component patch the
table. So what is cached must belong to the solution that the hint starts from. The
invariant `Tracks` says that it does, and that the caller's table holds the gains of
the weighted sum. A single component with weight one is scanned directly and has no
cache; all other cases are alike.

## Results

* `evaluate_eq_combine` — the sum evaluates to the combination of the component values.
* `advance_current`     — a summand is brought to the present solution.
* `scan_tracks`         — so are the cache and the table, by one scan.
-/

namespace SwapSearch.WeightedSum

variable {α : Type}

-- ---------------------------------------------------------------------------
-- Advancing a summand
-- ---------------------------------------------------------------------------

section Advance

variable [Scalar α]

theorem advance_of_evaluate {c : Summand α} {solution : Array Nat} {value : α}
    {gains : GainTable α} (hValue : c.objective.evaluate solution = .ok value)
    (hGains : c.objective.scan solution value none c.gains = .ok gains) :
    c.advance solution none = .ok { c with value, gains } := by
  unfold Summand.advance
  dsimp only
  rw [hValue]
  show (c.objective.scan solution value none c.gains >>= _) = _
  rw [hGains]
  rfl

theorem advance_of_gain {c : Summand α} {solution : Array Nat} {i j : Nat} {gain : α}
    {gains : GainTable α} (hGain : c.gains.gain? i j = .ok gain)
    (hGains : c.objective.scan solution (c.value + gain) (some (i, j)) c.gains = .ok gains) :
    c.advance solution (some (i, j)) = .ok { c with value := c.value + gain, gains } := by
  unfold Summand.advance
  dsimp only
  rw [hGain]
  show (c.objective.scan solution (c.value + gain) (some (i, j)) c.gains >>= _) = _
  rw [hGains]
  rfl

end Advance

variable [ExactScalar α]

-- ---------------------------------------------------------------------------
-- Values
-- ---------------------------------------------------------------------------

/-- The weighted sum of the component values. -/
def weighted (parts : List (Component α × α)) (p : Permutation) : α :=
  Scalar.sum (parts.map fun part => part.2 * part.1.value p)

theorem scalarSum_eq (xs : List α) : Scalar.sum xs = xs.sum := by
  unfold Scalar.sum
  rw [neg_zero, List.sum_eq_foldl]

/-- The difference of two weighted sums is the weighted sum of the differences. -/
theorem weighted_sub (parts : List (Component α × α)) (p p' : Permutation) :
    weighted parts p' - weighted parts p =
      Scalar.sum (parts.map fun part => part.2 * (part.1.value p' - part.1.value p)) := by
  unfold weighted
  rw [scalarSum_eq, scalarSum_eq, scalarSum_eq]
  induction parts with
  | nil => simp
  | cons part parts ih =>
    rw [List.map_cons, List.map_cons, List.map_cons, List.sum_cons, List.sum_cons, List.sum_cons,
      ← ih]
    ring

/-- One component with weight one is the sum. -/
theorem weighted_single (k : Component α) : weighted [(k, 1)] = k.value := by
  funext p
  unfold weighted
  rw [scalarSum_eq]
  simp

-- ---------------------------------------------------------------------------
-- The cache
-- ---------------------------------------------------------------------------

/-- The summand runs the component with its weight, on a table for `n` positions. -/
structure Runs (n : Nat) (c : Summand α) (part : Component α × α) : Prop where
  objective : c.objective = part.1.objective
  weight : c.weight = part.2
  size : c.gains.size = n

/-- The cached value and gains are those of the solution. -/
structure Current (p : Permutation) (c : Summand α) (part : Component α × α) : Prop extends
    Runs p.size c part where
  value : c.value = part.1.value p
  gains : TrueGains part.1.value p c.gains

/-- The table holds the gains of the sum, and what is cached belongs to the solution. -/
structure Tracks (parts : List (Component α × α)) (p : Permutation) (s : WeightedSum α)
    (table : GainTable α) : Prop where
  runs : List.Forall₂ (Runs p.size) s.summands parts
  cache : s.weights ≠ [1] → s.primed = true ∧ List.Forall₂ (Current p) s.summands parts
  size : table.size = p.size
  gains : TrueGains (weighted parts) p table

section Sum

variable {n : Nat} {s : WeightedSum α} {parts : List (Component α × α)} {p : Permutation}
  {hint : Option (Nat × Nat)} {table : GainTable α}

theorem weights_eq (h : List.Forall₂ (Runs n) s.summands parts) :
    s.weights = parts.map (·.2) :=
  map_eq_of_forall₂ (h.imp fun _ _ hRuns => hRuns.weight)

/-- A sum whose only weight is one passes scans on, and any other does not. -/
theorem soleComponent?_cases (h : List.Forall₂ (Runs n) s.summands parts) :
    (s.weights ≠ [1] ∧ s.soleComponent? = none) ∨
      ∃ k, s.weights = [1] ∧ parts = [(k, 1)] ∧ s.soleComponent? = some k.objective := by
  unfold WeightedSum.weights soleComponent?
  revert h
  generalize s.summands = summands
  intro h
  -- no summand, one or several
  cases h with
  | nil => exact Or.inl ⟨by simp, rfl⟩
  | @cons c part _ _ hRuns hRest =>
    cases hRest with
    | cons _ _ => exact Or.inl ⟨by simp, rfl⟩
    | nil =>
      by_cases hOne : c.weight = 1
      · obtain ⟨k, w⟩ := part
        obtain rfl : w = 1 := hRuns.weight.symm.trans hOne
        refine Or.inr ⟨k, by simp [hOne], rfl, ?_⟩
        simp [hRuns.objective, ExactScalar.beq_iff_eq, hOne]
      · refine Or.inl ⟨by simpa using hOne, ?_⟩
        simp [ExactScalar.beq_iff_eq, hOne]

/-- The sum evaluates to the combination of what its components evaluate to. -/
theorem evaluate_eq_combine (h : List.Forall₂ (Runs n) s.summands parts)
    (hEvaluate : ∀ part ∈ parts, part.1.objective.evaluate p.values = .ok (part.1.value p)) :
    s.evaluate p.values = .ok (weighted parts p) ∧
      s.combine (parts.map fun part => part.1.value p) = weighted parts p := by
  have hCombine : s.combine (parts.map fun part => part.1.value p) = weighted parts p := by
    unfold combine weighted
    rw [weights_eq h, List.zipWith_map, List.zipWith_self]
  refine ⟨?_, hCombine⟩
  have hValues : s.summands.mapM (fun c => c.objective.evaluate p.values) =
      .ok (parts.map fun part => part.1.value p) :=
    mapM_eq_of_forall₂ h fun c part hPart hRuns => hRuns.objective ▸ hEvaluate part hPart
  unfold evaluate
  rw [hValues]
  exact congrArg Except.ok hCombine

-- ---------------------------------------------------------------------------
-- One scan
-- ---------------------------------------------------------------------------

/-- A summand is brought to the present solution. With a hint its cache is that of the solution
before. -/
theorem advance_current {c : Summand α} {part : Component α × α} (hRuns : Runs p.size c part)
    (hSize : p.size = part.1.size) (hRange : part.1.Representable p hint)
    (hHint : ∀ pair ∈ hint, ∃ before, Exchanged before pair p ∧ Current before c part) :
    ∃ c', c.advance p.values hint = .ok c' ∧ Current p c' part := by
  have hTrueBefore : ∀ pair ∈ hint, ∃ before, Exchanged before pair p ∧
      TrueGains part.1.value before c.gains := fun pair hPair => by
    obtain ⟨before, hExchanged, hCurrent⟩ := hHint pair hPair
    exact ⟨before, hExchanged, hCurrent.gains⟩
  obtain ⟨gains, hScan, hTable, hTrue⟩ :=
    Component.scan_trueGains hSize hRuns.size hRange hTrueBefore
  rw [← hRuns.objective] at hScan
  refine ⟨{ c with value := part.1.value p, gains }, ?_,
    ⟨hRuns.objective, hRuns.weight, hTable⟩, rfl, hTrue⟩
  cases hint with
  | none =>
    refine advance_of_evaluate ?_ hScan
    rw [hRuns.objective]
    exact (Component.evaluate_eq hSize hRange).1
  | some pair =>
    obtain ⟨i, j⟩ := pair
    obtain ⟨before, ⟨hNe, hi, hj, rfl⟩, hBefore⟩ := hHint (i, j) rfl
    have hGain : c.gains.gain? i j =
        .ok (part.1.value (before.swap i j) - part.1.value before) := by
      rw [GainTable.gain?_of_ne hNe (hBefore.size ▸ hi) (hBefore.size ▸ hj),
        hBefore.gains.gain_eq hNe hi hj]
    -- the cached value has moved by the gain of the exchange
    have hMoved : c.value + (part.1.value (before.swap i j) - part.1.value before) =
        part.1.value (before.swap i j) := by
      rw [hBefore.value, add_sub_cancel]
    rw [← hMoved] at hScan ⊢
    exact advance_of_gain (hMoved.symm ▸ hGain) hScan

/-- The gain of the sum is the weighted sum of the components' gains. -/
theorem combinedGain_eq {summands : List (Summand α)}
    (h : List.Forall₂ (Current p) summands parts) {i j : Nat} (hij : i < j) (hj : j < p.size) :
    combinedGain summands i j = .ok (weighted parts (p.swap i j) - weighted parts p) := by
  -- each summand contributes its own change, weighted
  have hGains : summands.mapM (fun c => do
      let gain ← c.gains.gain? i j
      return c.weight * gain) =
        (.ok (parts.map fun part => part.2 * (part.1.value (p.swap i j) - part.1.value p)) :
          Except Breach (List α)) := by
    refine mapM_eq_of_forall₂ h fun c part _ hCurrent => ?_
    have hi : i < c.gains.size := by
      rw [hCurrent.size]
      omega
    have hGain := GainTable.gain?_of_ne (Nat.ne_of_lt hij) hi (hCurrent.size ▸ hj)
    rw [hGain, hCurrent.gains i j hij hj, hCurrent.weight]
    rfl
  unfold combinedGain
  rw [hGains, weighted_sub]
  rfl

/-- A pass over all pairs fills the table with the gains of the sum. -/
theorem fill_combined {summands : List (Summand α)}
    (h : List.Forall₂ (Current p) summands parts) (hTable : table.size = p.size) :
    ∃ table', (swapPairs p.size).foldlM (fun t pair => do
        t.put? pair.1 pair.2 (← combinedGain summands pair.1 pair.2)) table = .ok table' ∧
      table'.size = p.size ∧ TrueGains (weighted parts) p table' := by
  have hStep : ∀ t : GainTable α, p.size ≤ t.size → ∀ i j, i < j → j < p.size →
      (do t.put? i j (← combinedGain summands i j)) =
        .ok (t.put i j (weighted parts (p.swap i j) - weighted parts p)) := by
    intro t ht i j hij hj
    rw [combinedGain_eq h hij hj]
    exact GainTable.put?_of_lt hij (Nat.lt_of_lt_of_le hj ht) _
  obtain ⟨table', hFill, hSize, hGains⟩ := GainTable.fill_swapPairs
    (fun i j _ => weighted parts (p.swap i j) - weighted parts p) hStep (Nat.le_of_eq hTable.symm)
  exact ⟨table', hFill, hSize.trans hTable, hGains⟩

section Hint

variable (hTable : table.size = p.size)
  (hHint : ∀ pair ∈ hint, ∃ before, Exchanged before pair p ∧ Tracks parts before s table)

include hHint

/-- A hint is used only once the cache is filled, which it is after the scan before. -/
theorem usedHint_eq (hSeveral : s.weights ≠ [1]) : (if s.primed then hint else none) = hint := by
  cases hint with
  | none => split <;> rfl
  | some pair =>
    obtain ⟨before, -, hTracks⟩ := hHint pair rfl
    rw [if_pos (hTracks.cache hSeveral).1]

include hTable

/-- Every summand is ready to be brought to the present solution. -/
theorem ready_of_hint (hSeveral : s.weights ≠ [1])
    (hRuns : List.Forall₂ (Runs p.size) s.summands parts) :
    List.Forall₂ (fun c part => Runs p.size c part ∧
      ∀ pair ∈ hint, ∃ before, Exchanged before pair p ∧ Current before c part)
      s.summands parts := by
  cases hint with
  | none => exact hRuns.imp fun c part h => ⟨h, fun _ hPair => nomatch hPair⟩
  | some pair =>
    obtain ⟨before, hExchanged, hTracks⟩ := hHint pair rfl
    have hSame : before.size = p.size := hTracks.size.symm.trans hTable
    refine (hTracks.cache hSeveral).2.imp fun c part h => ⟨hSame ▸ h.toRuns, ?_⟩
    intro pair' hPair
    obtain rfl := Option.some.inj hPair
    exact ⟨before, hExchanged, h⟩

variable (hRuns : List.Forall₂ (Runs p.size) s.summands parts)
  (hSizes : ∀ part ∈ parts, p.size = part.1.size)
  (hRange : ∀ part ∈ parts, part.1.Representable p hint)

include hRuns hSizes hRange

/-- A scan with a cache advances every summand and combines their gains. -/
theorem scan_several (hSeveral : s.weights ≠ [1]) (hNone : s.soleComponent? = none) :
    ∃ s' table', s.scan p.values (weighted parts p) hint table = .ok (s', table') ∧
      s'.weights = s.weights ∧ Tracks parts p s' table' := by
  -- every summand is brought to the present solution, then their gains are combined
  obtain ⟨summands, hAdvance, hCurrent⟩ :=
    exists_mapM_of_forall₂ (f := Summand.advance p.values hint)
      (ready_of_hint hTable hHint hSeveral hRuns)
      fun c part hPart h => advance_current h.1 (hSizes part hPart) (hRange part hPart) h.2
  obtain ⟨table', hFill, hSize', hGains⟩ := fill_combined hCurrent hTable
  have hRuns' : List.Forall₂ (Runs p.size) summands parts := hCurrent.imp fun _ _ h => h.toRuns
  refine ⟨⟨summands, true, if hint.isNone then p.values :: s.consulted else s.consulted⟩,
    table', ?_, ?_, hRuns', fun _ => ⟨rfl, hCurrent⟩, hSize', hGains⟩
  · unfold scan
    rw [hNone]
    dsimp only
    rw [usedHint_eq hHint hSeveral, hAdvance]
    show (List.foldlM (fun t pair => do
      t.put? pair.1 pair.2 (← combinedGain summands pair.1 pair.2)) table (swapPairs p.size) >>=
        _) = _
    rw [hFill]
    rfl
  · rw [weights_eq hRuns, weights_eq (s := ⟨summands, _, _⟩) hRuns']

end Hint

/-- A scan without a cache is a scan of the only component. -/
theorem scan_sole {k : Component α}
    (hRuns : List.Forall₂ (Runs p.size) s.summands [(k, 1)]) (hSize : p.size = k.size)
    (hTable : table.size = p.size) (hRange : k.Representable p hint)
    (hHint : ∀ pair ∈ hint, ∃ before, Exchanged before pair p ∧
      Tracks [(k, 1)] before s table)
    (hOne : s.weights = [1]) (hSole : s.soleComponent? = some k.objective) :
    ∃ s' table', s.scan p.values (weighted [(k, 1)] p) hint table = .ok (s', table') ∧
      s'.weights = s.weights ∧ Tracks [(k, 1)] p s' table' := by
  have hTrue : ∀ pair ∈ hint, ∃ before, Exchanged before pair p ∧
      TrueGains k.value before table := fun pair hPair => by
    obtain ⟨before, hExchanged, hTracks⟩ := hHint pair hPair
    exact ⟨before, hExchanged, weighted_single k ▸ hTracks.gains⟩
  obtain ⟨table', hScan, hSize', hGains⟩ := Component.scan_trueGains hSize hTable hRange hTrue
  rw [weighted_single]
  refine ⟨s, table', ?_, rfl, hRuns, fun hSeveral => absurd hOne hSeveral, hSize', ?_⟩
  · unfold scan
    rw [hSole]
    dsimp only
    rw [hScan]
    rfl
  · rw [weighted_single]
    exact hGains

/-- **One scan.** It brings the cache and the table to the present solution. With a hint, it
relies on what the scan of the solution before has left. -/
theorem scan_tracks (hRuns : List.Forall₂ (Runs p.size) s.summands parts)
    (hSizes : ∀ part ∈ parts, p.size = part.1.size) (hTable : table.size = p.size)
    (hRange : ∀ part ∈ parts, part.1.Representable p hint)
    (hHint : ∀ pair ∈ hint, ∃ before, Exchanged before pair p ∧ Tracks parts before s table) :
    ∃ s' table', s.scan p.values (weighted parts p) hint table = .ok (s', table') ∧
      s'.weights = s.weights ∧ Tracks parts p s' table' := by
  rcases soleComponent?_cases hRuns with ⟨hSeveral, hNone⟩ | ⟨k, hOne, rfl, hSole⟩
  · exact scan_several hTable hHint hRuns hSizes hRange hSeveral hNone
  · exact scan_sole hRuns (hSizes (k, 1) (by simp)) hTable (hRange (k, 1) (by simp)) hHint hOne
      hSole

end Sum

end SwapSearch.WeightedSum
