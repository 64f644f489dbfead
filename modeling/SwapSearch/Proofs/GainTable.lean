import SwapSearch.GainTable

/-!
# SwapSearch — reading and filling a gain table

`swapPairs n` lists every pair `i < j < n` exactly once, and different pairs own
different cells. A pass over all pairs that brings each cell up to date therefore
leaves in every cell what its own step computed from what the cell held before
(`fill_swapPairs`), whatever the order of the pairs.

## Results

* `mem_swapPairs`, `pairwise_swapPairs` — the pairs, and their order.
* `gain_put_self`, `gain_put_of_ne`     — reading after writing.
* `fill_swapPairs`                      — a pass over all pairs.
* `mem_of_foldl_keepBest`               — a scan over the moves keeps one of them.
-/

namespace SwapSearch

-- ---------------------------------------------------------------------------
-- Pairs
-- ---------------------------------------------------------------------------

theorem mem_swapPairs {n i j : Nat} : (i, j) ∈ swapPairs n ↔ i < j ∧ j < n := by
  unfold swapPairs
  rw [List.mem_flatMap]
  constructor
  · rintro ⟨k, hk, hMem⟩
    obtain ⟨l, hl, hEq⟩ := List.mem_map.mp hMem
    obtain ⟨rfl, rfl⟩ := Prod.mk.inj hEq
    rw [List.mem_range'_1] at hl
    omega
  · rintro ⟨hij, hj⟩
    refine ⟨i, List.mem_range.mpr (by omega), List.mem_map.mpr ⟨j, ?_, rfl⟩⟩
    rw [List.mem_range'_1]
    omega

/-- Pairs are listed in row-major order. -/
theorem pairwise_swapPairs (n : Nat) :
    (swapPairs n).Pairwise fun p q => p.1 < q.1 ∨ p.1 = q.1 ∧ p.2 < q.2 := by
  unfold swapPairs
  rw [List.flatMap_def, List.pairwise_flatten]
  constructor
  · intro row hRow
    obtain ⟨i, -, rfl⟩ := List.mem_map.mp hRow
    rw [List.pairwise_map]
    exact List.Pairwise.imp (fun hLt => Or.inr ⟨rfl, hLt⟩) List.pairwise_lt_range'
  · rw [List.pairwise_map]
    refine List.Pairwise.imp (fun hLt p hp q hq => ?_) List.pairwise_lt_range
    obtain ⟨_, -, rfl⟩ := List.mem_map.mp hp
    obtain ⟨_, -, rfl⟩ := List.mem_map.mp hq
    exact Or.inl hLt

theorem nodup_swapPairs (n : Nat) : (swapPairs n).Nodup := by
  refine (pairwise_swapPairs n).imp fun h hEq => ?_
  rw [hEq] at h
  omega

/-- A row-major index lies inside the square. -/
theorem rowMajor_lt {n i j : Nat} (hi : i < n) (hj : j < n) : i * n + j < n * n := by
  calc i * n + j < i * n + n := Nat.add_lt_add_left hj _
    _ = (i + 1) * n := by rw [Nat.add_mul, Nat.one_mul]
    _ ≤ n * n := Nat.mul_le_mul_right n hi

namespace GainTable

variable {α : Type}

-- ---------------------------------------------------------------------------
-- Cells
-- ---------------------------------------------------------------------------

theorem offset_of_lt {n i j : Nat} (h : i < j) : offset n i j = i * n + j := by
  unfold offset
  rw [Nat.min_eq_left (Nat.le_of_lt h), Nat.max_eq_right (Nat.le_of_lt h)]

theorem offset_lt {n i j : Nat} (hij : i < j) (hj : j < n) : offset n i j < n * n := by
  rw [offset_of_lt hij]
  exact rowMajor_lt (by omega) hj

/-- Different pairs own different cells. -/
theorem offset_inj {n i j k l : Nat} (hij : i < j) (hj : j < n) (hkl : k < l) (hl : l < n)
    (h : offset n i j = offset n k l) : i = k ∧ j = l := by
  rw [offset_of_lt hij, offset_of_lt hkl] at h
  have hRow : ∀ x y, y < n → (x * n + y) / n = x := by
    intro x y hy
    rw [Nat.mul_comm, Nat.mul_add_div (by omega), Nat.div_eq_of_lt hy, Nat.add_zero]
  obtain rfl : i = k := by rw [← hRow i j hj, h, hRow k l hl]
  exact ⟨rfl, Nat.add_left_cancel h⟩

theorem offset_comm (n i j : Nat) : offset n i j = offset n j i := by
  unfold offset
  rw [Nat.min_comm, Nat.max_comm]

theorem requirePair_of_lt {t : GainTable α} {i j : Nat} (hij : i < j) (hj : j < t.size) :
    t.requirePair i j = .ok () := by
  unfold requirePair
  rw [if_neg (by omega), if_pos (by omega)]

theorem put?_of_lt {t : GainTable α} {i j : Nat} (hij : i < j) (hj : j < t.size) (x : α) :
    t.put? i j x = .ok (t.put i j x) := by
  unfold put?
  rw [requirePair_of_lt hij hj]
  rfl

variable [Scalar α]

theorem gain?_of_ne {t : GainTable α} {i j : Nat} (hNe : i ≠ j) (hi : i < t.size)
    (hj : j < t.size) : t.gain? i j = .ok (t.gain i j) := by
  unfold gain? requirePair
  rw [if_neg hNe, if_pos ⟨hi, hj⟩]
  rfl

/-- A pair is unordered. -/
theorem gain_comm (t : GainTable α) (i j : Nat) : t.gain i j = t.gain j i := by
  unfold gain
  rw [offset_comm]

theorem gain_put_self {t : GainTable α} {i j : Nat} (hij : i < j) (hj : j < t.size) (x : α) :
    (t.put i j x).gain i j = x := by
  have hCell : offset t.size i j < t.cells.size := by
    rw [t.cells_size]
    exact offset_lt hij hj
  show (t.cells.setIfInBounds (offset t.size i j) x).getD (offset t.size i j) 0 = x
  simp [Array.getD, hCell]

theorem gain_put_of_ne {t : GainTable α} {i j k l : Nat} (hij : i < j) (hj : j < t.size)
    (hkl : k < l) (hl : l < t.size) (hNe : (i, j) ≠ (k, l)) (x : α) :
    (t.put i j x).gain k l = t.gain k l := by
  have hOther : offset t.size i j ≠ offset t.size k l := fun h => by
    obtain ⟨rfl, rfl⟩ := offset_inj hij hj hkl hl h
    exact hNe rfl
  show (t.cells.setIfInBounds (offset t.size i j) x).getD (offset t.size k l) 0 =
    t.cells.getD (offset t.size k l) 0
  simp [hOther]

theorem add?_of_lt {t : GainTable α} {i j : Nat} (hij : i < j) (hj : j < t.size) (x : α) :
    t.add? i j x = .ok (t.put i j (t.gain i j + x)) := by
  unfold add?
  rw [requirePair_of_lt hij hj]
  rfl

-- ---------------------------------------------------------------------------
-- Passes
-- ---------------------------------------------------------------------------

section Fill

variable {n : Nat} (f : Nat → Nat → α → α)
  {step : GainTable α → Nat → Nat → Except Breach (GainTable α)}

/-- A pass over some pairs brings their cells up to date and leaves the others alone. -/
theorem fill_pairs (hStep : ∀ t : GainTable α, n ≤ t.size → ∀ i j, i < j → j < n →
      step t i j = .ok (t.put i j (f i j (t.gain i j))))
    {pairs : List (Nat × Nat)} (hPairs : ∀ i j, (i, j) ∈ pairs → i < j ∧ j < n)
    (hNodup : pairs.Nodup) {t : GainTable α} (hSize : n ≤ t.size) :
    ∃ t', pairs.foldlM (fun t (i, j) => step t i j) t = .ok t' ∧ t'.size = t.size ∧
      ∀ i j, i < j → j < n →
        t'.gain i j = if (i, j) ∈ pairs then f i j (t.gain i j) else t.gain i j := by
  -- on the pairs, over any table to start from; a pair occurs once, so no later one undoes it
  induction pairs generalizing t with
  | nil => exact ⟨t, rfl, rfl, fun i j _ _ => (if_neg List.not_mem_nil).symm⟩
  | cons pair pairs ih =>
    obtain ⟨k, l⟩ := pair
    obtain ⟨hNew, hNodupRest⟩ := List.nodup_cons.mp hNodup
    obtain ⟨hkl, hl⟩ := hPairs k l (List.mem_cons_self ..)
    obtain ⟨t', hFold, hSize', hGain⟩ := ih (t := t.put k l (f k l (t.gain k l)))
      (fun i j h => hPairs i j (List.mem_cons_of_mem _ h)) hNodupRest hSize
    refine ⟨t', ?_, hSize', fun i j hij hj => ?_⟩
    · rw [List.foldlM_cons]
      dsimp only
      rw [hStep t hSize k l hkl hl]
      exact hFold
    · rw [hGain i j hij hj]
      by_cases hHere : (k, l) = (i, j)
      · obtain ⟨rfl, rfl⟩ := Prod.mk.inj hHere
        rw [if_neg hNew, if_pos (List.mem_cons_self ..), gain_put_self hij (by omega)]
      · have hMem : (i, j) ∈ (k, l) :: pairs ↔ (i, j) ∈ pairs := by
          rw [List.mem_cons, or_iff_right (Ne.symm hHere)]
        rw [gain_put_of_ne hkl (by omega) hij (by omega) hHere]
        simp only [hMem]

/-- A pass over all pairs brings every cell up to date. -/
theorem fill_swapPairs (hStep : ∀ t : GainTable α, n ≤ t.size → ∀ i j, i < j → j < n →
      step t i j = .ok (t.put i j (f i j (t.gain i j))))
    {t : GainTable α} (hSize : n ≤ t.size) :
    ∃ t', (swapPairs n).foldlM (fun t (i, j) => step t i j) t = .ok t' ∧ t'.size = t.size ∧
      ∀ i j, i < j → j < n → t'.gain i j = f i j (t.gain i j) := by
  obtain ⟨t', hFold, hSize', hGain⟩ :=
    fill_pairs f hStep (fun i j h => mem_swapPairs.mp h) (nodup_swapPairs n) hSize
  refine ⟨t', hFold, hSize', fun i j hij hj => ?_⟩
  rw [hGain i j hij hj, if_pos (mem_swapPairs.mpr ⟨hij, hj⟩)]

end Fill

-- ---------------------------------------------------------------------------
-- Moves
-- ---------------------------------------------------------------------------

/-- The moves are the pairs of the table, each with its gain. -/
theorem mem_moves {t : GainTable α} {m : Move α} :
    m ∈ t.moves ↔ m.first < m.second ∧ m.second < t.size ∧ m.gain = t.gain m.first m.second := by
  constructor
  · intro h
    obtain ⟨⟨i, j⟩, hPair, rfl⟩ := List.mem_map.mp h
    obtain ⟨hij, hj⟩ := mem_swapPairs.mp hPair
    exact ⟨hij, hj, rfl⟩
  · rintro ⟨hij, hj, hGain⟩
    refine List.mem_map.mpr ⟨(m.first, m.second), mem_swapPairs.mpr ⟨hij, hj⟩, ?_⟩
    show (⟨m.first, m.second, t.gain m.first m.second⟩ : Move α) = m
    rw [← hGain]

/-- A move exchanges two different positions of the table. -/
theorem lt_of_mem_moves {t : GainTable α} {m : Move α} (h : m ∈ t.moves) :
    m.first < m.second ∧ m.second < t.size := by
  obtain ⟨hij, hj, -⟩ := mem_moves.mp h
  exact ⟨hij, hj⟩

-- ---------------------------------------------------------------------------
-- Scanning
-- ---------------------------------------------------------------------------

/-- Keeps the best move that passes the test. A move no better than it is not tested. -/
def keepBest (test : Move α → Bool) (kept : Option (Move α)) (m : Move α) : Option (Move α) :=
  if kept.any fun k => m.gain ≤ k.gain then kept else if test m then some m else kept

/-- The move of steepest ascent has to pass no test. -/
theorem bestMove_eq (t : GainTable α) :
    t.bestMove = t.moves.foldl (keepBest fun _ => true) none := by
  unfold bestMove
  congr 1
  funext kept m
  cases kept with
  | none => rfl
  | some k => by_cases hLe : m.gain ≤ k.gain <;> simp [better, keepBest, hLe]

/-- A scan keeps what it had or one of the moves. -/
theorem mem_of_foldl_keepBest {test : Move α → Bool} {moves : List (Move α)}
    {kept : Option (Move α)} {m : Move α} (h : moves.foldl (keepBest test) kept = some m) :
    kept = some m ∨ m ∈ moves := by
  induction moves generalizing kept with
  | nil => exact Or.inl h
  | cons c moves ih =>
    rcases ih h with hNow | hLater
    · unfold keepBest at hNow
      split at hNow
      · exact Or.inl hNow
      · split at hNow
        · obtain rfl := Option.some.inj hNow
          exact Or.inr List.mem_cons_self
        · exact Or.inl hNow
    · exact Or.inr (List.mem_cons_of_mem _ hLater)

theorem mem_moves_of_bestMove {t : GainTable α} {m : Move α} (h : t.bestMove = some m) :
    m ∈ t.moves := by
  rw [bestMove_eq] at h
  exact (mem_of_foldl_keepBest h).resolve_left nofun

end GainTable

end SwapSearch
