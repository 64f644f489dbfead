import Mathlib.Algebra.GroupWithZero.Nat
import Mathlib.Data.List.Infix
import Mathlib.Logic.Relation
import SwapSearch.Budget

/-!
# SwapSearch — asking before working

Whoever works on a budget asks first whether it is exhausted. So a budget that was
opened by one charge goes on only while less than the total has been used, and only its
last charge can overdraw it. The saturation of the count makes no difference: once usage
is at the largest word, every total that is a word has been used.

* `Budget.Draws` — one charge of at most `most` units, after asking.
* `Budget.Asked` — the charges of a budget on which all but the first have asked.
* `Budget.Timely` — the same, without a bound on the single charge.

## Results

* `Prudent.draws`   — a charge after asking keeps the books of a budget right.
* `Asked.sum_le`    — what the charges come to is the first one, or overdraws the total by
  less than the largest charge.
-/

namespace SwapSearch.Budget

/-- A charge of at most `most` units to a budget that is not exhausted. -/
inductive Draws (most : Nat) (b : Budget) : Budget → Prop
  | charge {units : Nat} (hUnits : units ≤ most) (hOpen : b.isExhausted = false) :
      Draws most b (b.charge units)

/-- Charges, newest first, of which all but the opening one were made while less than the total
had been used, and were of at most `most` units. -/
inductive Asked (opening most total : Nat) : List Nat → Prop
  | opening : Asked opening most total [opening]
  | next {charges : List Nat} {units : Nat} (h : Asked opening most total charges)
      (hUnits : units ≤ most) (hOpen : Word.saturated charges.sum < total) :
      Asked opening most total (units :: charges)

/-- Nothing but the opening charge was made once `total` units had been used. Charges are listed
newest first. -/
def Timely (total : Nat) (charges : List Nat) : Prop :=
  ∀ units older, units :: older <:+ charges → older = [] ∨ Word.saturated older.sum < total

/-- A budget of `total` units, with an opening charge after which everyone asked. -/
structure Prudent (opening most total : Nat) (b : Budget) : Prop where
  total_eq : b.total = total
  used_eq : b.used = Word.saturated b.charges.sum
  charges : Asked opening most total b.charges

theorem saturated_add (m n : Nat) :
    Word.saturated (Word.saturated m + n) = Word.saturated (m + n) := by
  unfold Word.saturated
  omega

/-- A ledger whose usage is the sum of its charges stays one. -/
theorem used_charge {b : Budget} (h : b.used = Word.saturated b.charges.sum) (units : Nat) :
    (b.charge units).used = Word.saturated (b.charge units).charges.sum := by
  show Word.saturated (b.used + units) = Word.saturated (units + b.charges.sum)
  rw [h, saturated_add, Nat.add_comm]

/-- Usage is a word and does not fall. -/
theorem used_le_charge {b : Budget} (h : b.used ≤ Word.largest) (units : Nat) :
    b.used ≤ (b.charge units).used ∧ (b.charge units).used ≤ Word.largest :=
  ⟨Nat.le_min.mpr ⟨Nat.le_add_right .., h⟩, Nat.min_le_right ..⟩

/-- An exhausted budget stays so. -/
theorem isExhausted_charge {b : Budget} (hUsed : b.used = Word.saturated b.charges.sum)
    (h : b.isExhausted = true) (units : Nat) : (b.charge units).isExhausted = true := by
  have hTotal : b.total ≤ b.used := of_decide_eq_true h
  refine decide_eq_true ?_
  show b.total ≤ Word.saturated (b.used + units)
  rw [hUsed] at hTotal ⊢
  unfold Word.saturated at hTotal ⊢
  omega

variable {opening most total : Nat} {b b' : Budget} {charges : List Nat}

namespace Prudent

/-- A charge after asking. -/
theorem draws (h : Prudent opening most total b) (hDraws : Draws most b b') :
    Prudent opening most total b' := by
  obtain ⟨hUnits, hOpen⟩ := hDraws
  have hBelow : ¬ b.total ≤ b.used := of_decide_eq_false hOpen
  rw [h.total_eq, h.used_eq] at hBelow
  exact ⟨h.total_eq, used_charge h.used_eq _, h.charges.next hUnits (Nat.not_le.mp hBelow)⟩

/-- Charges one after the other. -/
theorem draws_many (h : Prudent opening most total b)
    (hDraws : Relation.ReflTransGen (Draws most) b b') : Prudent opening most total b' := by
  induction hDraws with
  | refl => exact h
  | tail _ hLast ih => exact ih.draws hLast

/-- The opening charge. -/
theorem open_grant : Prudent opening most total ((grant total).charge opening) where
  total_eq := rfl
  used_eq := used_charge rfl opening
  charges := .opening

end Prudent

theorem Asked.getLast?_eq (h : Asked opening most total charges) :
    charges.getLast? = some opening := by
  induction h with
  | opening => rfl
  | @next charges units h _ _ ih =>
    cases charges with
    | nil => exact nomatch ih
    | cons last rest => rwa [List.getLast?_cons_cons]

theorem Asked.timely (h : Asked opening most total charges) : Timely total charges := by
  induction h with
  | opening =>
    intro units older hSuffix
    rcases List.suffix_cons_iff.mp hSuffix with hAll | hNone
    · exact Or.inl (List.cons.inj hAll).2
    · exact nomatch List.suffix_nil.mp hNone
  | next _ _ hOpen ih =>
    intro units older hSuffix
    rcases List.suffix_cons_iff.mp hSuffix with hAll | hOlder
    · obtain ⟨-, rfl⟩ := List.cons.inj hAll
      exact Or.inr hOpen
    · exact ih units older hOlder

/-- The total is a word, so what the charges come to overdraws it by less than one charge. -/
theorem Asked.sum_le (h : Asked opening most total charges) (hTotal : total ≤ Word.largest) :
    charges.sum ≤ max opening (total - 1 + most) := by
  cases h with
  | opening => exact Nat.le_max_left ..
  | next _ hUnits hOpen =>
    rw [List.sum_cons]
    unfold Word.saturated at hOpen
    omega

theorem Draws.mono {more : Nat} (hMore : most ≤ more) (h : Draws most b b') : Draws more b b' := by
  obtain ⟨hUnits, hOpen⟩ := h
  exact .charge (Nat.le_trans hUnits hMore) hOpen

/-- Drawing adds to the charges. -/
theorem sum_le_of_draws (h : Relation.ReflTransGen (Draws most) b b') :
    b.charges.sum ≤ b'.charges.sum := by
  induction h with
  | refl => exact Nat.le_refl _
  | tail _ hLast ih =>
    obtain ⟨-, -⟩ := hLast
    exact Nat.le_trans ih (Nat.le_add_left ..)

/-- A scan costs one unit a pair. -/
theorem eq_of_scanCost {n cost : Nat} (h : scanCost n = .ok cost) : cost = pairCount n := by
  unfold scanCost Word.checked at h
  split at h
  · exact (Except.ok.inj h).symm
  · exact nomatch h

end SwapSearch.Budget
