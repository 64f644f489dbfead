import Mathlib.Algebra.Ring.Int.Defs
import SwapSearch.Word

/-!
# SwapSearch — signed computations and integers

A formula over `Signed` either overflows somewhere or has the value it would have
over the integers: it *yields* that value. The relation is closed under the
operators, so what a formula yields can be read off it.

Whether it overflows depends on the magnitudes. A formula stays *within* a magnitude
if it has a value of at most that magnitude whenever magnitudes of this size are
representable. The bound of a formula is at least the bounds of its parts, so this is
closed under the operators too, and only the bound of the whole has to be compared
with the word size.

## Results

* `Yields.add`, `Yields.sub`, `Yields.mul`, `yields_foldl` — the closure.
* `Yields.result_eq` — a computation that does not overflow has the yielded value.
* `Within.add`, `Within.sub`, `Within.mul`, `within_foldl` — magnitudes.
* `foldl_add_ofInt` — when a sum has its value, and when it overflows.
-/

namespace SwapSearch.Signed

/-- The computation has the value `v`, unless it overflows. -/
def Yields (x : Signed) (v : Int) : Prop := x.result = .ok v ∨ x.result = .error .overflow

/-- The computation does not overflow. -/
def InRange (x : Signed) : Prop := x.result ≠ .error .overflow

instance InRange.decidable (x : Signed) : Decidable x.InRange :=
  match h : x.result with
  | .ok v => isTrue fun hOverflow => nomatch h.symm.trans hOverflow
  | .error e =>
    decidable_of_iff (e ≠ .overflow) (by
      unfold InRange
      rw [h]
      exact not_congr ⟨congrArg _, Except.error.inj⟩)

theorem Yields.result_eq {x : Signed} {v : Int} (h : x.Yields v) (hRange : x.InRange) :
    x.result = .ok v :=
  h.resolve_right hRange

theorem Yields.eq_of_ok {x : Signed} {v w : Int} (h : x.Yields v) (hResult : x.result = .ok w) :
    w = v := by
  rcases h with h | h
  · exact Except.ok.inj (hResult.symm.trans h)
  · exact nomatch hResult.symm.trans h

theorem yields_ofInt (v : Int) : (ofInt v).Yields v := by
  unfold Yields ofInt
  by_cases h : Fits v
  · exact Or.inl (if_pos h)
  · exact Or.inr (if_neg h)

theorem yields_zero : (0 : Signed).Yields 0 := yields_ofInt 0

theorem Yields.combine {x y : Signed} {v w : Int} (f : Int → Int → Int) (hx : x.Yields v)
    (hy : y.Yields w) : (combine f x y).Yields (f v w) := by
  unfold Signed.combine
  rcases hx with hx | hx
  · rcases hy with hy | hy
    · rw [hx, hy]
      exact yields_ofInt _
    · rw [hx, hy]
      exact Or.inr rfl
  · rw [hx]
    exact Or.inr rfl

theorem Yields.add {x y : Signed} {v w : Int} (hx : x.Yields v) (hy : y.Yields w) :
    (x + y).Yields (v + w) :=
  hx.combine (· + ·) hy

theorem Yields.sub {x y : Signed} {v w : Int} (hx : x.Yields v) (hy : y.Yields w) :
    (x - y).Yields (v - w) :=
  hx.combine (· - ·) hy

theorem Yields.mul {x y : Signed} {v w : Int} (hx : x.Yields v) (hy : y.Yields w) :
    (x * y).Yields (v * w) :=
  hx.combine (· * ·) hy

/-- A loop that adds a term for each item yields the sum. -/
theorem yields_foldl {β : Type} {items : List β} {step : Signed → β → Signed} {g : β → Int}
    (hStep : ∀ b ∈ items, ∀ (x : Signed) (v : Int), x.Yields v → (step x b).Yields (v + g b))
    {x : Signed} {v : Int} (h : x.Yields v) :
    (items.foldl step x).Yields (v + (items.map g).sum) := by
  induction items generalizing x v with
  | nil =>
    rw [List.map_nil, List.sum_nil, Int.add_zero]
    exact h
  | cons b items ih =>
    have hRest := ih (fun c hc => hStep c (List.mem_cons_of_mem _ hc))
      (hStep b (List.mem_cons_self ..) x v h)
    rw [List.map_cons, List.sum_cons, ← Int.add_assoc]
    exact hRest

-- ---------------------------------------------------------------------------
-- Magnitudes
-- ---------------------------------------------------------------------------

/-- If magnitudes up to `m` are representable the computation has a value, of magnitude at most
`m`. -/
def Within (x : Signed) (m : Nat) : Prop :=
  Fits m → ∃ v, x.result = .ok v ∧ v.natAbs ≤ m

theorem fits_of_natAbs_le {v : Int} {m : Nat} (h : v.natAbs ≤ m) (hm : Fits m) : Fits v := by
  unfold Fits at *
  omega

theorem Within.mono {x : Signed} {m m' : Nat} (h : x.Within m) (hLe : m ≤ m') : x.Within m' := by
  intro hFits
  obtain ⟨v, hv, hBound⟩ := h (fits_of_natAbs_le hLe hFits)
  exact ⟨v, hv, Nat.le_trans hBound hLe⟩

theorem within_zero : (0 : Signed).Within 0 := fun _ => ⟨0, rfl, Nat.le_refl 0⟩

/-- The bound of a combination covers its parts and the value they combine to. -/
theorem Within.combine {x y : Signed} {a b m : Nat} (f : Int → Int → Int) (hx : x.Within a)
    (hy : y.Within b) (ha : a ≤ m) (hb : b ≤ m)
    (hf : ∀ v w : Int, v.natAbs ≤ a → w.natAbs ≤ b → (f v w).natAbs ≤ m) :
    (combine f x y).Within m := by
  intro hFits
  obtain ⟨v, hv, hLeft⟩ := hx (fits_of_natAbs_le ha hFits)
  obtain ⟨w, hw, hRight⟩ := hy (fits_of_natAbs_le hb hFits)
  have hBound := hf v w hLeft hRight
  refine ⟨f v w, ?_, hBound⟩
  unfold Signed.combine
  rw [hv, hw]
  exact if_pos (fits_of_natAbs_le hBound hFits)

section Operators

variable {x y : Signed} {a b : Nat}

theorem Within.add (hx : x.Within a) (hy : y.Within b) : (x + y).Within (a + b) :=
  hx.combine (· + ·) hy (Nat.le_add_right a b) (Nat.le_add_left b a) fun v w hv hw =>
    Nat.le_trans (Int.natAbs_add_le v w) (Nat.add_le_add hv hw)

theorem Within.sub (hx : x.Within a) (hy : y.Within b) : (x - y).Within (a + b) :=
  hx.combine (· - ·) hy (Nat.le_add_right a b) (Nat.le_add_left b a) fun v w hv hw =>
    Nat.le_trans (Int.natAbs_sub_le v w) (Nat.add_le_add hv hw)

/-- Neither bound may be zero, or the product would not cover the other. -/
theorem Within.mul (hx : x.Within a) (hy : y.Within b) (ha : 1 ≤ a) (hb : 1 ≤ b) :
    (x * y).Within (a * b) :=
  hx.combine (· * ·) hy (Nat.le_mul_of_pos_right a hb) (Nat.le_mul_of_pos_left b ha)
    fun v w hv hw => Int.natAbs_mul v w ▸ Nat.mul_le_mul hv hw

end Operators

/-- A loop that adds something of magnitude at most `c` for each item. -/
theorem within_foldl {β : Type} {items : List β} {step : Signed → β → Signed} {c : Nat}
    (hStep : ∀ b ∈ items, ∀ (x : Signed) (m : Nat), x.Within m → (step x b).Within (m + c))
    {x : Signed} {m : Nat} (h : x.Within m) :
    (items.foldl step x).Within (m + items.length * c) := by
  induction items generalizing x m with
  | nil =>
    rw [List.length_nil, Nat.zero_mul]
    exact h
  | cons b items ih =>
    have hRest := ih (fun d hd => hStep d (List.mem_cons_of_mem _ hd))
      (hStep b List.mem_cons_self x m h)
    rw [List.length_cons, Nat.succ_mul, Nat.add_comm (items.length * c), ← Nat.add_assoc]
    exact hRest

-- ---------------------------------------------------------------------------
-- Running sums
-- ---------------------------------------------------------------------------

/-- No term fails to fit, and neither does a sum of the first terms, added to `v`. -/
def RunningSumsFit (v : Int) (terms : List Int) : Prop :=
  (∀ t ∈ terms, Fits t) ∧ ∀ front, front <+: terms → Fits (v + front.sum)

theorem runningSumsFit_cons {v t : Int} {terms : List Int} (hStart : Fits v) :
    RunningSumsFit v (t :: terms) ↔ Fits t ∧ RunningSumsFit (v + t) terms := by
  unfold RunningSumsFit
  rw [List.forall_mem_cons, and_assoc]
  refine and_congr_right fun _ => and_congr_right fun _ => ?_
  constructor
  · intro h front hFront
    have hLonger := h (t :: front) (List.cons_prefix_cons.mpr ⟨rfl, hFront⟩)
    rwa [List.sum_cons, ← Int.add_assoc] at hLonger
  · intro h front hFront
    rcases List.prefix_cons_iff.mp hFront with rfl | ⟨shorter, rfl, hShorter⟩
    · simpa using hStart
    · rw [List.sum_cons, ← Int.add_assoc]
      exact h shorter hShorter

theorem foldl_add_overflow (terms : List Int) {x : Signed} (hx : x.result = .error .overflow) :
    (terms.foldl (fun sum t => sum + ofInt t) x).result = .error .overflow := by
  induction terms generalizing x with
  | nil => exact hx
  | cons t terms ih =>
    refine ih ?_
    show (combine (· + ·) x (ofInt t)).result = .error .overflow
    unfold combine
    rw [hx]

/-- **A sum from left to right** has its value exactly if no term and no running sum overflows. -/
theorem foldl_add_ofInt (terms : List Int) {x : Signed} {v : Int} (hx : x.result = .ok v)
    (hStart : Fits v) :
    (RunningSumsFit v terms →
      (terms.foldl (fun sum t => sum + ofInt t) x).result = .ok (v + terms.sum)) ∧
    (¬ RunningSumsFit v terms →
      (terms.foldl (fun sum t => sum + ofInt t) x).result = .error .overflow) := by
  -- on the terms, with the running sum so far as the start
  induction terms generalizing x v with
  | nil =>
    have hFits : RunningSumsFit v [] := by
      refine ⟨nofun, fun front hFront => ?_⟩
      obtain rfl := List.prefix_nil.mp hFront
      simpa using hStart
    exact ⟨fun _ => by simpa using hx, fun h => absurd hFits h⟩
  | cons t terms ih =>
    rw [runningSumsFit_cons hStart, List.foldl_cons, List.sum_cons, ← Int.add_assoc]
    by_cases hTerm : Fits t
    · have hStep : x + ofInt t = ofInt (v + t) := by
        show combine (· + ·) x (ofInt t) = _
        unfold combine
        rw [hx, show (ofInt t).result = .ok t from if_pos hTerm]
      -- the running sum overflows here, and what overflows stays so
      by_cases hSum : Fits (v + t)
      · obtain ⟨hFit, hOverflow⟩ := ih (x := ofInt (v + t)) (if_pos hSum) hSum
        rw [hStep]
        exact ⟨fun h => hFit h.2, fun h => hOverflow fun hFits => h ⟨hTerm, hFits⟩⟩
      · have hFails : ¬ RunningSumsFit (v + t) terms := fun h =>
          hSum (by simpa using h.2 [] List.nil_prefix)
        have hEnd := foldl_add_overflow terms
          (x := ofInt (v + t)) (if_neg hSum)
        rw [hStep]
        exact ⟨fun h => absurd h.2 hFails, fun _ => hEnd⟩
    · have hStep : (x + ofInt t).result = .error .overflow := by
        show (combine (· + ·) x (ofInt t)).result = _
        unfold combine
        rw [hx, show (ofInt t).result = .error .overflow from if_neg hTerm]
      exact ⟨fun h => absurd h.1 hTerm, fun _ => foldl_add_overflow terms hStep⟩

end SwapSearch.Signed
