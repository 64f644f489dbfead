import SwapSearch.Proofs.WeightedSum.Cache

/-!
# SwapSearch — sequences of scans

A `Call` is a solution with a hint. Calls continue one another when a hint, if there
is one, names the exchange made in between; without a hint any solution may follow.
One scan after the other keeps the cache in step, so in the end it says what the
objectives would say if they were evaluated afresh.

## Results

* `follow_tracks`   — calls that continue one another keep the cache in step.
* `exact_of_tracks` — what a cache that is in step says.
* `follow_exact`    — so any sequence of scans from a new sum is exact.
-/

namespace SwapSearch.WeightedSum

variable {α : Type}

-- ---------------------------------------------------------------------------
-- Calls
-- ---------------------------------------------------------------------------

section Calls

variable [Scalar α]

/-- What a scan is called with: a solution, and the exchange that led to it, if it is known. -/
structure Call where
  solution : Permutation
  hint : Option (Nat × Nat)

/-- A call may follow another one on solutions of the same size. A hint names the exchange that was
made in between. -/
structure Call.LeadsTo (before call : Call) : Prop where
  size : call.solution.size = before.solution.size
  hint : ∀ pair ∈ call.hint, Exchanged before.solution pair call.solution

instance (call before : Call) : Decidable (before.LeadsTo call) :=
  decidable_of_iff (call.solution.size = before.solution.size ∧
      ∀ pair ∈ call.hint, Exchanged before.solution pair call.solution)
    ⟨fun h => ⟨h.1, h.2⟩, fun h => ⟨h.1, h.2⟩⟩

/-- Scans one solution after the other into the same table, each with its weighted value. -/
def follow (s : WeightedSum α) (table : GainTable α) :
    List Call → Except Breach (WeightedSum α × GainTable α)
  | [] => .ok (s, table)
  | call :: rest => do
    let value ← s.evaluate call.solution.values
    let (s, table) ← s.scan call.solution.values value call.hint table
    follow s table rest

end Calls

variable [ExactScalar α]

-- ---------------------------------------------------------------------------
-- Sequences of scans
-- ---------------------------------------------------------------------------

section Follow

variable {s : WeightedSum α} {parts : List (Component α × α)} {table : GainTable α}

/-- A call after another one, or a first call without a hint. -/
theorem follow_cons {call : Call} (rest : List Call)
    (hRuns : List.Forall₂ (Runs call.solution.size) s.summands parts)
    (hSizes : ∀ part ∈ parts, call.solution.size = part.1.size)
    (hTable : table.size = call.solution.size)
    (hRange : ∀ part ∈ parts, part.1.Representable call.solution call.hint)
    (hHint : ∀ pair ∈ call.hint, ∃ before, Exchanged before pair call.solution ∧
      Tracks parts before s table) :
    ∃ s' table', s.follow table (call :: rest) = s'.follow table' rest ∧
      s'.weights = s.weights ∧ Tracks parts call.solution s' table' := by
  have hValue : s.evaluate call.solution.values = .ok (weighted parts call.solution) :=
    (evaluate_eq_combine hRuns fun part hPart =>
      (Component.evaluate_eq (hSizes part hPart) (hRange part hPart)).1).1
  obtain ⟨s', table', hScan, hWeights, hTracks⟩ :=
    scan_tracks hRuns hSizes hTable hRange hHint
  refine ⟨s', table', ?_, hWeights, hTracks⟩
  rw [follow, hValue]
  show (s.scan call.solution.values (weighted parts call.solution) call.hint table >>= _) = _
  rw [hScan]
  rfl

/-- Calls that continue one another keep the cache and the table up to date. -/
theorem follow_tracks {before : Call} {rest : List Call}
    (hChain : (before :: rest).IsChain Call.LeadsTo)
    (hSizes : ∀ part ∈ parts, before.solution.size = part.1.size)
    (hRange : ∀ call ∈ rest, ∀ part ∈ parts, part.1.Representable call.solution call.hint)
    (hTracks : Tracks parts before.solution s table) :
    ∃ s' table', s.follow table rest = .ok (s', table') ∧ s'.weights = s.weights ∧
      (rest.getLastD before).solution.size = before.solution.size ∧
      Tracks parts (rest.getLastD before).solution s' table' := by
  induction rest generalizing before s table with
  | nil => exact ⟨s, table, rfl, rfl, rfl, hTracks⟩
  | cons call rest ih =>
    obtain ⟨⟨hSize, hHint⟩, hRest⟩ := List.isChain_cons_cons.mp hChain
    obtain ⟨hNow, hLater⟩ := List.forall_mem_cons.mp hRange
    obtain ⟨s', table', hFollow, hWeights, hTracks'⟩ :=
      follow_cons rest (hSize ▸ hTracks.runs) (fun part hPart => hSize.trans (hSizes part hPart))
        (hTracks.size.trans hSize.symm) hNow
        fun pair hPair => ⟨before.solution, hHint pair hPair, hTracks⟩
    obtain ⟨last, table'', hFollow', hWeights', hSize', hTracks''⟩ :=
      ih hRest (fun part hPart => hSize.trans (hSizes part hPart)) hLater hTracks'
    rw [List.getLastD_cons]
    exact ⟨last, table'', hFollow.trans hFollow', hWeights'.trans hWeights, hSize'.trans hSize,
      hTracks''⟩

end Follow

-- ---------------------------------------------------------------------------
-- Whole sums
-- ---------------------------------------------------------------------------

/-- What a new sum consists of. -/
theorem runs_ofObjectives {components : List (Component α)} {weights : List α} {n : Nat}
    (hSizes : ∀ k ∈ components, k.size = n) {s : WeightedSum α}
    (h : ofObjectives (components.map Component.objective) weights = .ok s) :
    List.Forall₂ (Runs n) s.summands (components.zip weights) ∧
      components.length = weights.length := by
  cases components with
  | nil => exact nomatch h
  | cons k ks =>
    unfold ofObjectives at h
    rw [List.map_cons] at h
    dsimp only at h
    split at h
    · exact nomatch h
    · next hLength =>
      obtain ⟨table, hAllocate, hNew⟩ := exists_of_bind_ok h
      obtain rfl := Except.ok.inj hNew
      have hTable : table.size = n := by
        rw [GainTable.size_of_allocate hAllocate, Component.size_objective]
        exact hSizes k (List.mem_cons_self ..)
      refine ⟨?_, by simpa using hLength⟩
      rw [← List.map_cons, List.zip_map_left, List.map_map, List.forall₂_map_left_iff,
        List.forall₂_same]
      exact fun part _ => ⟨rfl, rfl, hTable⟩

/-- What a cache that is in step says about the solution. -/
theorem exact_of_tracks {components : List (Component α)} {weights : List α} {n : Nat}
    {p : Permutation} {hint : Option (Nat × Nat)} {s s' : WeightedSum α} {table : GainTable α}
    (hSizes : ∀ k ∈ components, k.size = p.size)
    (hRuns : List.Forall₂ (Runs n) s.summands (components.zip weights))
    (hLength : components.length = weights.length)
    (hRange : ∀ k ∈ components, k.Representable p hint)
    (hWeights : s'.weights = s.weights)
    (hTracks : Tracks (components.zip weights) p s' table) :
    (∀ i j, i ≠ j → i < p.size → j < p.size → ∃ v v', s.evaluate p.values = .ok v ∧
      s.evaluate (p.swap i j).values = .ok v' ∧ table.gain i j = v' - v) ∧
    ∃ values, (components.mapM fun k => k.objective.evaluate p.values) = .ok values ∧
      s.evaluate p.values = .ok (s.combine values) ∧
      (weights ≠ [1] → s'.summands.map (·.value) = values) := by
  have hParts : ∀ part ∈ components.zip weights, part.1 ∈ components :=
    fun part hPart => (List.of_mem_zip hPart).1
  have hEvaluate := fun k hk => Component.evaluate_eq (hSizes k hk).symm (hRange k hk)
  obtain ⟨hHere, hCombine⟩ :=
    evaluate_eq_combine hRuns fun part hPart => (hEvaluate _ (hParts part hPart)).1
  -- the value of the sum beside the solution
  have hThere : ∀ i j, i < j → j < p.size → s.evaluate (p.swap i j).values =
      .ok (weighted (components.zip weights) (p.swap i j)) := fun i j hij hj =>
    (evaluate_eq_combine hRuns fun part hPart =>
      (hEvaluate _ (hParts part hPart)).2 i j hij hj).1
  have hValues : ((components.zip weights).map fun part => part.1.value p) =
      components.map fun k => k.value p := by
    rw [← Function.comp_def (fun k : Component α => k.value p) Prod.fst, ← List.map_map,
      List.map_fst_zip (Nat.le_of_eq hLength)]
  refine ⟨fun i j hNe hi hj => ?_, components.map fun k => k.value p, ?_, ?_, fun hSeveral => ?_⟩
  · refine ⟨_, _, hHere, ?_, hTracks.gains.gain_eq hNe hi hj⟩
    rcases Nat.lt_or_gt_of_ne hNe with hLt | hGt
    · exact hThere i j hLt hj
    · rw [Permutation.swap_comm hi hj]
      exact hThere j i hGt hi
  · refine mapM_eq_of_forall₂ (R := Eq) (List.forall₂_refl components) fun k k' hk hEq => ?_
    rw [hEq]
    exact (hEvaluate k' hk).1
  · rw [← hValues, hCombine]
    exact hHere
  · -- with more than a weight of one the values are read off the cache
    have hCached : s'.weights ≠ [1] := by
      rw [hWeights, weights_eq hRuns, List.map_snd_zip (Nat.le_of_eq hLength.symm)]
      exact hSeveral
    rw [← hValues]
    exact map_eq_of_forall₂ ((hTracks.cache hCached).2.imp fun _ _ h => h.value)

/-- **The cache stays in step.** Scan a sequence of solutions, the first without a hint and each
later one with the exchange made since or without a hint. Every scan succeeds, and after the last
one the table holds the gains of the weighted sum, the values in the cache are those of the
components (unless the only weight is one, where there is no cache), and they combine to the value
of the sum. -/
theorem follow_exact {components : List (Component α)} {weights : List α} {n : Nat}
    (hSizes : ∀ k ∈ components, k.size = n) {s : WeightedSum α}
    (hSum : ofObjectives (components.map Component.objective) weights = .ok s)
    {table : GainTable α} (hTable : table.size = n) {first : Call} {rest : List Call}
    (hFirst : first.hint = none) (hSize : first.solution.size = n)
    (hChain : (first :: rest).IsChain Call.LeadsTo)
    (hRange : ∀ call ∈ first :: rest, ∀ k ∈ components,
      k.Representable call.solution call.hint) :
    ∃ s' table', s.follow table (first :: rest) = .ok (s', table') ∧
      let p := (rest.getLastD first).solution
      (∀ i j, i ≠ j → i < n → j < n → ∃ v v', s.evaluate p.values = .ok v ∧
        s.evaluate (p.swap i j).values = .ok v' ∧ table'.gain i j = v' - v) ∧
      ∃ values, (components.mapM fun k => k.objective.evaluate p.values) = .ok values ∧
        s.evaluate p.values = .ok (s.combine values) ∧
        (weights ≠ [1] → s'.summands.map (·.value) = values) := by
  obtain ⟨hRuns, hLength⟩ := runs_ofObjectives hSizes hSum
  have hParts : ∀ part ∈ components.zip weights, part.1 ∈ components :=
    fun part hPart => (List.of_mem_zip hPart).1
  have hSizeFirst : ∀ part ∈ components.zip weights, first.solution.size = part.1.size :=
    fun part hPart => hSize.trans (hSizes _ (hParts part hPart)).symm
  obtain ⟨hRangeFirst, hRangeRest⟩ := List.forall_mem_cons.mp hRange
  -- the first scan fills the cache, whatever the table held before
  obtain ⟨s₁, table₁, hFollow₁, hWeights₁, hTracks₁⟩ :=
    follow_cons rest (hSize ▸ hRuns) hSizeFirst (hTable.trans hSize.symm)
      (fun part hPart => hRangeFirst _ (hParts part hPart)) (by simp [hFirst])
  -- every later one keeps it in step
  obtain ⟨s', table', hFollow, hWeights, hSizeLast, hTracks⟩ :=
    follow_tracks hChain hSizeFirst
      (fun call hCall part hPart => hRangeRest call hCall _ (hParts part hPart)) hTracks₁
  have hLast : rest.getLastD first ∈ first :: rest := List.getLastD_mem_cons ..
  have hSizeLast' : (rest.getLastD first).solution.size = n := hSizeLast.trans hSize
  have hExact := exact_of_tracks (fun k hk => (hSizes k hk).trans hSizeLast'.symm) hRuns hLength
    (hRange _ hLast) (hWeights.trans hWeights₁) hTracks
  rw [hSizeLast'] at hExact
  exact ⟨s', table', hFollow₁.trans hFollow, hExact⟩

theorem follow_exact_two_components :
    let q : Assignment :=
      ⟨4, #[1, 5, 2, 7, 0, 3, 8, 1, 4, 4, 2, 9, 6, 1, 3, 5],
        #[2, 1, 7, 3, 9, 0, 4, 4, 5, 8, 1, 6, 2, 3, 7, 1]⟩
    let components : List (Component ℚ) :=
      [.assignment q ⟨rfl, rfl⟩, .evaluation 4 fun p => (p.getD 0 0 : ℚ) / 2]
    let sum : WeightedSum ℚ :=
      ⟨(components.zip [2, 1 / 3]).map fun part =>
        ⟨part.1.objective, part.2, 0, .zeros 4⟩, false, []⟩
    let first : Call := ⟨.identity 4, none⟩
    let rest : List Call :=
      [⟨(Permutation.identity 4).swap 3 1, some (3, 1)⟩,
        ⟨((Permutation.identity 4).swap 3 1).swap 0 2, some (0, 2)⟩,
        ⟨.identity 4, none⟩]
    (∀ k ∈ components, k.size = 4) ∧
    ofObjectives (components.map Component.objective) [2, 1 / 3] = .ok sum ∧
    (GainTable.zeros 4 : GainTable ℚ).size = 4 ∧ first.hint = none ∧ first.solution.size = 4 ∧
    (first :: rest).IsChain Call.LeadsTo ∧
    (∀ call ∈ first :: rest, ∀ k ∈ components, k.Representable call.solution call.hint) ∧
    ∃ s' table', sum.follow (.zeros 4) (first :: rest) = .ok (s', table') ∧
      let p := (rest.getLastD first).solution
      (∀ i j, i ≠ j → i < 4 → j < 4 → ∃ v v', sum.evaluate p.values = .ok v ∧
        sum.evaluate (p.swap i j).values = .ok v' ∧ table'.gain i j = v' - v) ∧
      ∃ values, (components.mapM fun k => k.objective.evaluate p.values) = .ok values ∧
        sum.evaluate p.values = .ok (sum.combine values) ∧
        (([2, 1 / 3] : List ℚ) ≠ [1] → s'.summands.map (·.value) = values) := by
  intro q components sum first rest
  have hSizes : ∀ k ∈ components, k.size = 4 := by simp [components, Component.size, q]
  have hSum : ofObjectives (components.map Component.objective) [2, 1 / 3] = .ok sum := rfl
  have hChain : (first :: rest).IsChain Call.LeadsTo := by decide +kernel
  have hRange : ∀ call ∈ first :: rest, ∀ k ∈ components,
      k.Representable call.solution call.hint := by decide +kernel
  exact ⟨hSizes, hSum, rfl, rfl, rfl, hChain, hRange,
    follow_exact hSizes hSum rfl rfl rfl hChain hRange⟩

end SwapSearch.WeightedSum
