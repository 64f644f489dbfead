import SwapSearch.Proofs.Tabu.Accuracy

/-!
# SwapSearch — computations that succeed

`Succeeds` says that a computation has a result and what is known of it. It composes
along binds, so a program that is made of computations that succeed does so too, and
what each of them leaves is passed on to the next.

The primitives that can break off are the counters, the allocations, the draws from a
range and the scans of a landscape. Each of them succeeds under a condition on its
arguments alone.

## Results

* `checked_succeeds`        — counters that fit into a word.
* `between_succeeds`        — draws from a finite range, and the values they take.
* `scannable_ofEvaluation`  — scans of an objective known by its values.
-/

namespace SwapSearch.Tabu

-- ---------------------------------------------------------------------------
-- Success
-- ---------------------------------------------------------------------------

section Success

variable {β γ : Type} {Q : β → Prop} {R : γ → Prop}

/-- The computation succeeds, with a result that satisfies `Q`. -/
def Succeeds (x : Except Breach β) (Q : β → Prop) : Prop := ∃ b, x = .ok b ∧ Q b

theorem Succeeds.pure {b : β} (h : Q b) : Succeeds (pure b) Q := ⟨b, rfl, h⟩

/-- One computation after the other. -/
theorem Succeeds.bind {x : Except Breach β} {f : β → Except Breach γ} (hx : Succeeds x Q)
    (hf : ∀ b, Q b → Succeeds (f b) R) : Succeeds (x >>= f) R := by
  obtain ⟨b, rfl, hb⟩ := hx
  exact hf b hb

/-- What is known of the result anyway. -/
theorem Succeeds.and {P : β → Prop} {x : Except Breach β} (hx : Succeeds x Q)
    (h : ∀ b, x = .ok b → P b) : Succeeds x fun b => Q b ∧ P b := by
  obtain ⟨b, hOk, hb⟩ := hx
  exact ⟨b, hOk, hb, h b hOk⟩

theorem checked_succeeds {k : Nat} (h : k < Word.size) : Succeeds (Word.checked k) (· = k) :=
  ⟨k, if_pos h, rfl⟩

theorem reserve_succeeds {count bytes : Nat} (h : count * bytes < Word.addressable) :
    Succeeds (Word.reserve count bytes) fun _ => True :=
  ⟨(), if_pos h, trivial⟩

theorem allocate_succeeds {α : Type} [Scalar α] {n : Nat} (h : n * n * 16 < Word.addressable) :
    Succeeds (GainTable.allocate n : Except Breach (GainTable α)) (·.size = n) := by
  unfold Word.addressable at h
  refine Succeeds.bind (checked_succeeds (by unfold Word.size; omega)) ?_
  rintro _ rfl
  refine Succeeds.bind (reserve_succeeds (by unfold Word.addressable; omega)) fun _ _ => ?_
  exact Succeeds.pure rfl

theorem Memory.allocate_succeeds {n : Nat} (h : n * n * 16 < Word.addressable) :
    Succeeds (Memory.allocate n) fun _ => True := by
  have hCells := h
  unfold Word.addressable at h
  refine Succeeds.bind (checked_succeeds (by unfold Word.size; omega)) ?_
  rintro _ rfl
  exact Succeeds.bind (reserve_succeeds hCells) fun _ _ => Succeeds.pure trivial

theorem scanCost_succeeds {n : Nat} (h : n * n < Word.size) :
    Succeeds (Budget.scanCost n) fun _ => True := by
  have hOrdered : n * (n - 1) ≤ n * n := Nat.mul_le_mul_left n (Nat.sub_le n 1)
  exact Succeeds.bind (checked_succeeds (Nat.lt_of_le_of_lt hOrdered h)) fun _ _ =>
    Succeeds.pure trivial

end Success

-- ---------------------------------------------------------------------------
-- Drawing
-- ---------------------------------------------------------------------------

section Drawing

variable {α ρ : Type} [Scalar α] [RandomSource ρ]

/-- The ends of the range are ordered, and they and their distance are finite. -/
def Drawable (lo hi : α) : Prop :=
  lo ≤ hi ∧ Scalar.isFinite lo = true ∧ Scalar.isFinite hi = true ∧
    Scalar.isFinite (hi - lo) = true

instance (lo hi : α) : Decidable (Drawable lo hi) := inferInstanceAs (Decidable (_ ∧ _))

/-- Draws take one of this many values. -/
def resolution : Nat := 4503599627370496

/-- The `k`-th value that a draw from a range can take. -/
def drawnAt (lo hi : α) (k : Nat) : α :=
  (k : α) / ((resolution : Nat) : α) * (hi - lo) + lo

theorem between_succeeds {lo hi : α} (h : Drawable lo hi) (r : ρ) :
    Succeeds (Random.between lo hi r) fun drawn => ∃ k < resolution, drawn.1 = drawnAt lo hi k := by
  obtain ⟨hOrder, hLo, hHi, hWidth⟩ := h
  unfold Random.between
  rw [if_pos (by simp [hOrder, hLo, hHi, hWidth])]
  refine ⟨_, rfl, (RandomSource.next64 r).1.toNat / 4096, ?_, rfl⟩
  have hWord := (RandomSource.next64 r).1.toNat_lt
  unfold resolution
  omega

/-- In exact arithmetic a draw stays in the range. -/
theorem drawnAt_le {β : Type} [ExactScalar β] {lo hi : β} (h : lo ≤ hi) {k : Nat}
    (hk : k < resolution) : drawnAt lo hi k ≤ hi := by
  have hCount : (k : β) ≤ (resolution : β) := Nat.cast_le.mpr (Nat.le_of_lt hk)
  have hPositive : (0 : β) < (resolution : β) := Nat.cast_pos.mpr (by decide)
  have hShare : (k : β) / (resolution : β) ≤ 1 := (div_le_one hPositive).mpr hCount
  have hStep := mul_le_mul_of_nonneg_right hShare (sub_nonneg.mpr h)
  unfold drawnAt
  linarith

end Drawing

-- ---------------------------------------------------------------------------
-- What a search relies on
-- ---------------------------------------------------------------------------

/-- Every scan of a solution of `n` positions succeeds and leaves a table of that size, and so does
every scan after it. -/
def Scannable {L α : Type} [Landscape L α] (n : Nat) (l : L) : Prop :=
  ∃ Good : L → Prop, Good l ∧ ∀ l, Good l → ∀ (p : Permutation) (value : α)
    (hint : Option (Nat × Nat)) (table : GainTable α), p.size = n → table.size = n →
    (∀ pair ∈ hint, pair.1 < pair.2 ∧ pair.2 < n) →
    Succeeds (Landscape.scan l p.values value hint table) fun scanned =>
      Good scanned.1 ∧ scanned.2.size = n

theorem Scannable.scan {L α : Type} [Landscape L α] {n : Nat} {l : L} (h : Scannable n l)
    {p : Permutation} (value : α) {hint : Option (Nat × Nat)} {table : GainTable α}
    (hSize : p.size = n) (hTable : table.size = n)
    (hHint : ∀ pair ∈ hint, pair.1 < pair.2 ∧ pair.2 < n) :
    Succeeds (Landscape.scan l p.values value hint table) fun scanned =>
      Scannable n scanned.1 ∧ scanned.2.size = n := by
  obtain ⟨Good, hGood, hScan⟩ := h
  obtain ⟨scanned, hOk, hNext, hTable'⟩ := hScan l hGood p value hint table hSize hTable hHint
  exact ⟨scanned, hOk, ⟨Good, hNext, hScan⟩, hTable'⟩

/-- An objective known by its values can be scanned. -/
theorem scannable_ofEvaluation {α : Type} [Scalar α] {n : Nat}
    {evaluate : Array Nat → Except Breach α} {f : Permutation → α}
    (hEvaluate : ∀ p : Permutation, p.size = n → evaluate p.values = .ok (f p)) :
    Scannable n (Objective.ofEvaluation n evaluate) := by
  refine ⟨(· = Objective.ofEvaluation n evaluate), rfl, ?_⟩
  rintro _ rfl p value hint table hSize hTable -
  obtain ⟨gains, hScan, hGains, -⟩ :=
    fullScan_fills hEvaluate hSize value hint (hTable.trans hSize.symm)
  refine ⟨(Objective.ofEvaluation n evaluate, gains), ?_, rfl, hGains.trans hSize⟩
  show (Objective.fullScan evaluate p.values value hint table >>= _) = _
  rw [hScan]
  rfl

end SwapSearch.Tabu
