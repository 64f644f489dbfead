import SwapSearch.Proofs.WeightedSum.Cache

/-!
# SwapSearch — sums of one objective

A sum takes its size from the first of its objectives. With a single objective and
weight one it stands for the objective: it evaluates to the same values and passes
scans on, so whatever is known of searches on the objective holds of searches on the
sum.

## Results

* `size_ofObjectives`   — the size.
* `evaluate_single`     — the values.
* `scan_single`         — the scans.
* `honoursGains_single` — a search may rely on the sum as it may on the objective.
-/

namespace SwapSearch.WeightedSum

variable {α : Type}

/-- A sum has the size of its first objective. -/
theorem size_ofObjectives [Scalar α] {objectives : List (Objective α)} {weights : List α}
    {s : WeightedSum α} (h : ofObjectives objectives weights = .ok s) :
    ∀ o ∈ objectives.head?, s.size = o.size := by
  cases objectives with
  | nil => exact nofun
  | cons first rest =>
    intro o ho
    obtain rfl := Option.some.inj ho
    unfold ofObjectives at h
    dsimp only at h
    split at h
    · exact nomatch h
    · next hLength =>
      obtain ⟨table, -, h⟩ := exists_of_bind_ok h
      obtain rfl := Except.ok.inj h
      cases weights with
      | nil => exact absurd hLength (by simp)
      | cons => rfl

theorem ofObjectives_single [Scalar α] {o : Objective α} {s : WeightedSum α}
    (h : ofObjectives [o] [1] = .ok s) : ∃ table, s = ⟨[⟨o, 1, 0, table⟩], false, []⟩ := by
  obtain ⟨table, -, hNew⟩ := exists_of_bind_ok h
  exact ⟨table, (Except.ok.inj hNew).symm⟩

/-- The value of a single objective is weighted by one. -/
theorem combine_weighted [Scalar α] {o : Objective α} {s : WeightedSum α}
    (h : ofObjectives [o] [1] = .ok s) (v : α) : s.combine [v] = Scalar.sum [1 * v] := by
  obtain ⟨table, rfl⟩ := ofObjectives_single h
  rfl

variable [ExactScalar α] {f : Permutation → α} {o : Objective α} {s : WeightedSum α}

/-- In exact arithmetic it is combined to itself. -/
theorem combine_single (h : ofObjectives [o] [1] = .ok s) (v : α) : s.combine [v] = v := by
  rw [combine_weighted h, scalarSum_eq, List.sum_singleton, one_mul]

theorem scan_single (h : ofObjectives [o] [1] = .ok s) (solution : Array Nat) (value : α)
    (hint : Option (Nat × Nat)) (table : GainTable α) :
    s.scan solution value hint table =
      (do return (s, ← o.scan solution value hint table)) := by
  have hSole : s.soleComponent? = some o := by
    obtain ⟨gains, rfl⟩ := ofObjectives_single h
    exact if_pos ((ExactScalar.beq_iff_eq 1 1).mpr rfl)
  unfold scan
  rw [hSole]

theorem evaluate_single (h : ofObjectives [o] [1] = .ok s) (solution : Array Nat) :
    s.evaluate solution = o.evaluate solution := by
  have hCombine := combine_single h
  obtain ⟨table, rfl⟩ := ofObjectives_single h
  unfold evaluate
  rw [List.mapM_cons]
  dsimp only
  cases o.evaluate solution with
  | error e => rfl
  | ok v => exact congrArg Except.ok (hCombine v)

/-- A search on a single objective with weight one is a search on the objective. -/
theorem honoursGains_single (h : ofObjectives [o] [1] = .ok s) (hContract : HonoursGains f o) :
    HonoursGains f s := by
  have hSize : Landscape.size s = Landscape.size o := by
    obtain ⟨table, rfl⟩ := ofObjectives_single h
    rfl
  -- a scan of the sum is one of the objective
  have hScan : ∀ {l : WeightedSum α} {p : Array Nat} {value : α} {hint : Option (Nat × Nat)}
      {table gains : GainTable α}, Landscape.scan s p value hint table = .ok (l, gains) →
      l = s ∧ Landscape.scan o p value hint table = .ok (o, gains) := by
    intro l p value hint table gains hOk
    have hPassed := (scan_single h p value hint table).symm.trans hOk
    obtain ⟨gains', hInner, hPair⟩ := exists_of_bind_ok hPassed
    obtain ⟨rfl, rfl⟩ := Prod.mk.inj (Except.ok.inj hPair)
    refine ⟨rfl, ?_⟩
    show (o.scan p value hint table >>= _) = _
    rw [hInner]
    rfl
  -- and so is any sequence of scans the contract speaks of
  have hScanned : ∀ {l : WeightedSum α} {p : Permutation} {gains : GainTable α},
      Scanned f s l p gains → l = s ∧ Scanned f o o p gains := by
    intro l p gains hSeen
    induction hSeen with
    | first hStart hBlank hFirst =>
      obtain ⟨rfl, hInner⟩ := hScan hFirst
      exact ⟨rfl, .first (hStart.trans hSize) hBlank hInner⟩
    | next _ hij hj hNext ih =>
      obtain ⟨rfl, hBefore⟩ := ih
      obtain ⟨rfl, hInner⟩ := hScan hNext
      exact ⟨rfl, .next hBefore hij hj hInner⟩
  refine ⟨fun p hp => ?_, fun hSeen => hContract.size (hScanned hSeen).2,
    fun hSeen => hContract.gains (hScanned hSeen).2⟩
  exact (evaluate_single h p.values).trans (hContract.evaluate p (hp.trans hSize))

end SwapSearch.WeightedSum
