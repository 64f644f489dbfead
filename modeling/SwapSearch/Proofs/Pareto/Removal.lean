import Mathlib.Data.List.Nodup
import SwapSearch.Proofs.Pareto.Forest

/-!
# SwapSearch — removing from a region forest

Two passes remove entries. An eviction removes what a newcomer dominates, skipping
the regions that are no superset of its own, and lets the newcomer take the place
of the first entry removed from its own bucket. A detachment removes the one entry
of a solution, and finds it by its vector.

An eviction works its way through slots, pivots and subtrees and hands its state
from one to the next. What it does to each of them is the same relation `Evicted`,
which composes (`Evicted.append`); the pass as a whole is the composition.

## Results

* `evicted_evict`  — exactly the dominated entries go, and the newcomer is either
                     stored or still waiting.
* `arranged_evict` — an eviction leaves the forest arranged.
* `stored_detach`  — exactly the entry of the solution goes.
* `arranged_detach` — a detachment leaves the forest arranged.
-/

namespace SwapSearch.Pareto

variable {α : Type}

/-- The newcomer, as an entry, as long as it has no place. -/
def Eviction.waiting (e : Eviction α) : List (Entry α) := e.pending.toList.map (·.toEntry)

-- ---------------------------------------------------------------------------
-- Distinct solutions
-- ---------------------------------------------------------------------------

/-- No solution occurs twice. -/
def DistinctSolutions (entries : List (Entry α)) : Prop := (entries.map (·.solution)).Nodup

theorem DistinctSolutions.append {a b : List (Entry α)} (h : DistinctSolutions (a ++ b)) :
    DistinctSolutions a ∧ DistinctSolutions b ∧ ∀ x ∈ a, ∀ y ∈ b, x.solution ≠ y.solution := by
  unfold DistinctSolutions at *
  rw [List.map_append, List.nodup_append] at h
  refine ⟨h.1, h.2.1, fun x hx y hy => ?_⟩
  exact h.2.2 _ (List.mem_map.mpr ⟨x, hx, rfl⟩) _ (List.mem_map.mpr ⟨y, hy, rfl⟩)

theorem DistinctSolutions.perm {a b : List (Entry α)} (h : DistinctSolutions a)
    (hPerm : a.Perm b) : DistinctSolutions b :=
  List.Nodup.perm h (hPerm.map Entry.solution)

theorem DistinctSolutions.sublist {a b : List (Entry α)} (h : DistinctSolutions b)
    (hSub : a.Sublist b) : DistinctSolutions a :=
  List.Pairwise.sublist (hSub.map Entry.solution) h

/-- A solution has one entry. -/
theorem DistinctSolutions.eq_of_solution_eq {entries : List (Entry α)}
    (h : DistinctSolutions entries) {x y : Entry α} (hx : x ∈ entries) (hy : y ∈ entries)
    (hEq : x.solution = y.solution) : x = y :=
  List.inj_on_of_nodup_map h hx hy hEq

/-- Where a solution does not occur, there is nothing to remove. -/
theorem filter_solution_eq_self {entries : List (Entry α)} {solution : Permutation}
    (h : ∀ x ∈ entries, x.solution ≠ solution) :
    entries.filter (fun x => x.solution ≠ solution) = entries :=
  List.filter_eq_self.mpr fun x hx => decide_eq_true (h x hx)

theorem DistinctSolutions.filter_left {a b : List (Entry α)} {e : Entry α}
    (h : DistinctSolutions (a ++ b)) (he : e ∈ a) :
    (a ++ b).filter (fun x => x.solution ≠ e.solution) =
      a.filter (fun x => x.solution ≠ e.solution) ++ b := by
  obtain ⟨-, -, hApart⟩ := h.append
  rw [List.filter_append, filter_solution_eq_self fun x hx => (hApart e he x hx).symm]

theorem DistinctSolutions.filter_right {a b : List (Entry α)} {e : Entry α}
    (h : DistinctSolutions (a ++ b)) (he : e ∈ b) :
    (a ++ b).filter (fun x => x.solution ≠ e.solution) =
      a ++ b.filter (fun x => x.solution ≠ e.solution) := by
  obtain ⟨-, -, hApart⟩ := h.append
  rw [List.filter_append, filter_solution_eq_self fun x hx => hApart x hx e he]

/-- Removing a solution removes its one entry. -/
theorem DistinctSolutions.cons_filter_perm {entries : List (Entry α)}
    (h : DistinctSolutions entries) {e : Entry α} (he : e ∈ entries) :
    (e :: entries.filter fun x => x.solution ≠ e.solution).Perm entries := by
  obtain ⟨before, after, rfl⟩ := List.append_of_mem he
  have hFirst : (before ++ e :: after).Perm (e :: (before ++ after)) := List.perm_middle
  have hMiddle : DistinctSolutions (e :: (before ++ after)) := h.perm hFirst
  have hOthers : ∀ x ∈ before ++ after, x.solution ≠ e.solution := fun x hx hEq =>
    (List.nodup_cons.mp hMiddle).1 (List.mem_map.mpr ⟨x, hx, hEq⟩)
  have hFilter : (e :: (before ++ after)).filter (fun x => x.solution ≠ e.solution) =
      before ++ after := by
    rw [List.filter_cons_of_neg (by simp), filter_solution_eq_self hOthers]
  have hSame := hFirst.filter fun x => x.solution ≠ e.solution
  rw [hFilter] at hSame
  exact (hSame.cons e).trans hFirst.symm

/-- Looking for a solution by its entry or among all entries comes to the same. -/
theorem DistinctSolutions.any_solution {entries : List (Entry α)} (h : DistinctSolutions entries)
    (solution : Permutation) (p : Entry α → Bool) :
    (entries.any fun x => decide (x.solution = solution) && p x) =
      (entries.find? fun x => x.solution = solution).any p := by
  rw [Bool.eq_iff_iff, List.any_eq_true, Option.any_eq_true]
  constructor
  · rintro ⟨x, hx, hBoth⟩
    obtain ⟨hSolution, hp⟩ := Bool.and_eq_true_iff.mp hBoth
    have hSome : (entries.find? fun x => x.solution = solution).isSome = true :=
      List.find?_isSome.mpr ⟨x, hx, hSolution⟩
    obtain ⟨y, hFound⟩ := Option.isSome_iff_exists.mp hSome
    have hSame : y.solution = solution := by simpa using List.find?_some hFound
    obtain rfl : y = x := h.eq_of_solution_eq (List.mem_of_find?_eq_some hFound) hx
      (hSame.trans (of_decide_eq_true hSolution).symm)
    exact ⟨y, hFound, hp⟩
  · rintro ⟨y, hFound, hp⟩
    have hSame : y.solution = solution := by simpa using List.find?_some hFound
    exact ⟨y, List.mem_of_find?_eq_some hFound,
      Bool.and_eq_true_iff.mpr ⟨decide_eq_true hSame, hp⟩⟩

variable [Scalar α]

-- ---------------------------------------------------------------------------
-- Evicting
-- ---------------------------------------------------------------------------

/-- From `before`, what the point dominates has gone and been reported; the rest is `after`, with
the newcomer added if it has stopped waiting. Only the point's own bucket takes it. -/
structure Evicted (point : List α) (own : Bool) (before after : List (Entry α))
    (e e' : Eviction α) : Prop where
  entries : (after ++ e'.waiting).Perm
    ((before.filter fun x => !dominates point x.vector) ++ e.waiting)
  gone : ∀ s, s ∈ e'.gone ↔
    s ∈ e.gone ∨ ∃ x ∈ before, dominates point x.vector = true ∧ x.solution = s
  pending : e'.pending = e.pending ∨ own = true ∧ e'.pending = none

namespace Evicted

variable {point : List α} {own : Bool} {before before' after after' : List (Entry α)}
  {e e' e'' : Eviction α}

/-- Nothing happens where the point dominates nothing. -/
theorem skip (h : ∀ x ∈ before, dominates point x.vector = false) :
    Evicted point own before before e e where
  entries := by
    rw [List.filter_eq_self.mpr fun x hx => by rw [h x hx]; rfl]
  gone s := by
    constructor
    · exact Or.inl
    · rintro (hs | ⟨x, hx, hDom, -⟩)
      · exact hs
      · exact absurd hDom (by simp [h x hx])
  pending := Or.inl rfl

theorem mono {own' : Bool} (hOwn : own = true → own' = true)
    (h : Evicted point own before after e e') : Evicted point own' before after e e' :=
  ⟨h.entries, h.gone, h.pending.imp_right fun hp => ⟨hOwn hp.1, hp.2⟩⟩

/-- One after the other. -/
theorem append (h : Evicted point own before after e e')
    (h' : Evicted point own before' after' e' e'') :
    Evicted point own (before ++ before') (after ++ after') e e'' where
  entries := by
    rw [List.filter_append, List.append_assoc, List.append_assoc]
    -- the second part takes what the first has left waiting
    have hLater : (after ++ (after' ++ e''.waiting)).Perm
        (after ++ ((before'.filter fun x => !dominates point x.vector) ++ e'.waiting)) :=
      h'.entries.append_left after
    have hEarlier : ((before'.filter fun x => !dominates point x.vector) ++
          (after ++ e'.waiting)).Perm
        ((before'.filter fun x => !dominates point x.vector) ++
          ((before.filter fun x => !dominates point x.vector) ++ e.waiting)) :=
      h.entries.append_left _
    exact hLater.trans ((List.perm_append_comm_assoc _ _ _).trans
      (hEarlier.trans (List.perm_append_comm_assoc _ _ _)))
  gone s := by
    rw [h'.gone, h.gone]
    constructor
    · rintro ((hs | ⟨x, hx, hDom⟩) | ⟨x, hx, hDom⟩)
      · exact Or.inl hs
      · exact Or.inr ⟨x, List.mem_append_left _ hx, hDom⟩
      · exact Or.inr ⟨x, List.mem_append_right _ hx, hDom⟩
    · rintro (hs | ⟨x, hx, hDom⟩)
      · exact Or.inl (Or.inl hs)
      · rcases List.mem_append.mp hx with hx | hx
        · exact Or.inl (Or.inr ⟨x, hx, hDom⟩)
        · exact Or.inr ⟨x, hx, hDom⟩
  pending := by
    rcases h'.pending with hp' | hp'
    · rw [hp']
      exact h.pending
    · exact Or.inr hp'

/-- One dominated entry goes. -/
theorem drop {x : Entry α} (hDom : dominates point x.vector = true) :
    Evicted point own [x] [] e { e with gone := x.solution :: e.gone } where
  entries := by simp [hDom, Eviction.waiting]
  gone s := by
    rw [List.mem_cons, or_comm, eq_comm]
    simp [hDom]
  pending := Or.inl rfl

/-- One dominated entry of the point's own bucket makes room for the newcomer. -/
theorem replace {x : Entry α} {newcomer : Slot α} (hDom : dominates point x.vector = true)
    (hPending : e.pending = some newcomer) :
    Evicted point true [x] [newcomer.toEntry] e ⟨none, x.solution :: e.gone⟩ where
  entries := by simp [hDom, Eviction.waiting, hPending]
  gone s := by
    have hDrop : Evicted point true [x] [] e { e with gone := x.solution :: e.gone } := drop hDom
    exact hDrop.gone s
  pending := Or.inr ⟨rfl, rfl⟩

end Evicted

theorem evicted_evictSlots (point : List α) (own : Bool) (slots : List (Slot α))
    (e : Eviction α) :
    Evicted point own (slots.map (·.toEntry)) ((evictSlots point own slots e).1.map (·.toEntry))
      e (evictSlots point own slots e).2 := by
  induction slots generalizing e with
  | nil => exact .skip (by simp)
  | cons s rest ih =>
    rw [evictSlots]
    split
    · next hDom =>
      split
      · next newcomer hPending =>
        exact (Evicted.replace (x := s.toEntry) hDom hPending).append (ih _)
      · exact (Evicted.drop (x := s.toEntry) hDom).append (ih _)
    · next hDom =>
      have hKeep : Evicted point own [s.toEntry] [s.toEntry] e e :=
        .skip (by simpa using hDom)
      exact hKeep.append (ih e)

/-- A pivot that the point dominates is no longer live. -/
theorem evicted_pivot (point : List α) (own live : Bool) (pivot : Slot α) (e : Eviction α) :
    Evicted point own (if live then [pivot.toEntry] else [])
      (if live && !(live && dominates point pivot.vector) then [pivot.toEntry] else []) e
      (if live && dominates point pivot.vector then { e with gone := pivot.solution :: e.gone }
        else e) := by
  cases live with
  | false => exact .skip (by simp)
  | true =>
    cases hDom : dominates point pivot.vector with
    | true => exact .drop (x := pivot.toEntry) hDom
    | false => exact .skip (by simpa using hDom)

theorem mem_evictSlots {point : List α} {own : Bool} {slots : List (Slot α)} {e : Eviction α}
    {s : Slot α} (h : s ∈ (evictSlots point own slots e).1) :
    s ∈ slots ∨ own = true ∧ e.pending = some s := by
  induction slots generalizing e with
  | nil => exact Or.inl h
  | cons t rest ih =>
    -- whatever is done with the first slot, the rest cannot add a newcomer it did not have
    have hRest : ∀ e' : Eviction α, (e'.pending = some s → e.pending = some s) →
        s ∈ (evictSlots point own rest e').1 →
        s ∈ t :: rest ∨ own = true ∧ e.pending = some s := by
      intro e' hPending hs
      rcases ih hs with hs | ⟨hOwn, hs⟩
      · exact Or.inl (List.mem_cons_of_mem _ hs)
      · exact Or.inr ⟨hOwn, hPending hs⟩
    rw [evictSlots] at h
    split at h
    · split at h
      · next newcomer hNewcomer =>
        -- the newcomer takes the place of the first slot it evicts
        rcases List.mem_cons.mp h with rfl | h
        · exact Or.inr ⟨rfl, hNewcomer⟩
        · exact hRest _ (fun hNone => absurd hNone (by simp)) h
      · exact hRest ⟨e.pending, t.solution :: e.gone⟩ id h
    · rcases List.mem_cons.mp h with rfl | h
      · exact Or.inl (List.mem_cons_self ..)
      · exact hRest e id h

namespace Forest

/-- The slots of a bucket after an eviction, and what the eviction hands on. -/
def evictBucket (q m : Nat) (point : List α) (own : Bool) (slots : List (Slot α))
    (e : Eviction α) : List (Slot α) × Eviction α :=
  if isSubregion q m then evictSlots point (own && m == q) slots e else (slots, e)

theorem evict_leaf (q : Nat) (point : List α) (own : Bool) (m n : Nat) (slots : List (Slot α))
    (rest : Forest α) (e : Eviction α) :
    evict q point own (leaf m n slots rest) e =
      (leaf m n (evictBucket q m point own slots e).1
          (evict q point own rest (evictBucket q m point own slots e).2).1,
        (evict q point own rest (evictBucket q m point own slots e).2).2) := rfl

/-- What the eviction of a pivot hands on. -/
def evictPivot (point : List α) (live : Bool) (pivot : Slot α) (e : Eviction α) : Eviction α :=
  if live && dominates point pivot.vector then { e with gone := pivot.solution :: e.gone } else e

theorem pending_evictPivot (point : List α) (live : Bool) (pivot : Slot α) (e : Eviction α) :
    (evictPivot point live pivot e).pending = e.pending := by
  unfold evictPivot
  split <;> rfl

theorem evict_branch_inside {q m : Nat} (h : isSubregion q m = true) (point : List α) (own : Bool)
    (n : Nat) (pivot : Slot α) (live : Bool) (children rest : Forest α) (e : Eviction α) :
    evict q point own (branch m n pivot live children rest) e =
      let below := evict (region pivot.vector point) point (own && m == q) children
        (evictPivot point live pivot e)
      let beside := evict q point own rest below.2
      (branch m n pivot (live && !(live && dominates point pivot.vector)) below.1 beside.1,
        beside.2) := by
  rw [evict, if_pos h]
  rfl

theorem evict_branch_outside {q m : Nat} (h : ¬ isSubregion q m = true) (point : List α)
    (own : Bool) (n : Nat) (pivot : Slot α) (live : Bool) (children rest : Forest α)
    (e : Eviction α) :
    evict q point own (branch m n pivot live children rest) e =
      (branch m n pivot live children (evict q point own rest e).1,
        (evict q point own rest e).2) := by
  rw [evict, if_neg h]

/-- Regions that are no superset of the point's own hold nothing that it dominates. -/
theorem not_dominated_of_not_isSubregion [OrderedScalar α] {d q m : Nat} {key : List α → Nat}
    {point v : List α} (hKey : IsRegionKey d key) (hv : IsPoint d v) (hPoint : IsPoint d point)
    (hq : key point = q) (hm : key v = m) (hSkip : ¬ isSubregion q m = true) :
    dominates point v = false := by
  cases h : dominates point v with
  | false => rfl
  | true =>
    have hWeak := ((hPoint.dominates_iff hv).mp h).1
    exact absurd (hq ▸ hm ▸ hKey point v hPoint hv hWeak) hSkip

/-- Exactly what the point dominates goes. -/
theorem evicted_evict [OrderedScalar α] {d q : Nat} {key : List α → Nat} {point : List α}
    {own : Bool} {f : Forest α} (e : Eviction α) (hKey : IsRegionKey d key)
    (hArranged : Arranged key f) (hPoints : ∀ v ∈ f.vectors, IsPoint d v)
    (hPoint : IsPoint d point) (hq : key point = q) :
    Evicted point own f.stored (evict q point own f e).1.stored e (evict q point own f e).2 := by
  -- on the forest: bucket, pivot, children and siblings are evicted one after the other
  induction f generalizing key q own e with
  | nil => exact .skip (by simp)
  | leaf m n slots rest ih =>
    obtain ⟨hSlots, -, hRest⟩ := hArranged
    rw [evict_leaf, stored_leaf, stored_leaf]
    -- a bucket outside the region of the point holds nothing it dominates
    have hBucket : Evicted point own (slots.map (·.toEntry))
        ((evictBucket q m point own slots e).1.map (·.toEntry)) e
        (evictBucket q m point own slots e).2 := by
      unfold evictBucket
      split
      · exact (evicted_evictSlots point _ slots e).mono fun h => (Bool.and_eq_true_iff.mp h).1
      · next hSkip =>
        refine .skip fun x hx => ?_
        obtain ⟨s, hs, rfl⟩ := List.mem_map.mp hx
        exact not_dominated_of_not_isSubregion hKey
          (hPoints _ (List.mem_append_left _ (List.mem_map.mpr ⟨s, hs, rfl⟩))) hPoint hq
          (hSlots s hs) hSkip
    exact hBucket.append
      (ih _ hKey hRest (fun v hv => hPoints v (List.mem_append_right _ hv)) hq)
  | branch m n pivot live children rest ihChildren ihRest =>
    obtain ⟨⟨hPivot, hBelow⟩, hChildren, -, hRest⟩ := hArranged
    have hPointsChildren : ∀ v ∈ children.vectors, IsPoint d v := fun v hv =>
      hPoints v (List.mem_cons_of_mem _ (List.mem_append_left _ hv))
    have hBeside : ∀ e, Evicted point own rest.stored (evict q point own rest e).1.stored e
        (evict q point own rest e).2 := fun e =>
      ihRest e hKey hRest
        (fun v hv => hPoints v (List.mem_cons_of_mem _ (List.mem_append_right _ hv))) hq
    by_cases hInside : isSubregion q m = true
    · rw [evict_branch_inside hInside, stored_branch, stored_branch]
      refine (evicted_pivot point own live pivot e).append (Evicted.append ?_ (hBeside _))
      exact (ihChildren _ (isRegionKey_region d _) hChildren hPointsChildren rfl).mono
        fun h => (Bool.and_eq_true_iff.mp h).1
    · -- nor does a branch outside, with all that is below it
      rw [evict_branch_outside hInside, stored_branch, stored_branch, ← List.append_assoc,
        ← List.append_assoc]
      refine Evicted.append (.skip fun x hx => ?_) (hBeside e)
      rcases List.mem_append.mp hx with hx | hx
      · obtain ⟨-, rfl⟩ := mem_livePivot.mp hx
        exact not_dominated_of_not_isSubregion hKey (hPoints _ (List.mem_cons_self ..)) hPoint
          hq hPivot hInside
      · have hv := vector_mem_of_stored hx
        exact not_dominated_of_not_isSubregion hKey (hPointsChildren _ hv) hPoint hq (hBelow _ hv)
          hInside

theorem regions_evict (q : Nat) (point : List α) (own : Bool) (f : Forest α) (e : Eviction α) :
    (evict q point own f e).1.regions = f.regions := by
  induction f generalizing e with
  | nil => rfl
  | leaf m n slots rest ih => exact congrArg (m :: ·) (ih _)
  | branch m n pivot live children rest _ ih =>
    by_cases hInside : isSubregion q m = true
    · rw [evict_branch_inside hInside]
      exact congrArg (m :: ·) (ih _)
    · rw [evict_branch_outside hInside]
      exact congrArg (m :: ·) (ih _)

theorem pending_evictBucket {q m : Nat} {point : List α} {own : Bool} {slots : List (Slot α)}
    {e : Eviction α} {s : Slot α} (h : (evictBucket q m point own slots e).2.pending = some s) :
    e.pending = some s := by
  unfold evictBucket at h
  split at h
  · rcases (evicted_evictSlots point (own && m == q) slots e).pending with hSame | ⟨-, hNone⟩
    · rwa [hSame] at h
    · exact absurd (hNone.symm.trans h) (by simp)
  · exact h

/-- An eviction lets the newcomer wait on or gives it a place. -/
theorem pending_evict {q : Nat} {point : List α} {own : Bool} {f : Forest α} {e : Eviction α}
    {s : Slot α} (h : (evict q point own f e).2.pending = some s) : e.pending = some s := by
  induction f generalizing q own e with
  | nil => exact h
  | leaf m n slots rest ih =>
    rw [evict_leaf] at h
    exact pending_evictBucket (ih h)
  | branch m n pivot live children rest ihChildren ihRest =>
    by_cases hInside : isSubregion q m = true
    · rw [evict_branch_inside hInside] at h
      have hBelow := ihChildren (ihRest h)
      rwa [pending_evictPivot] at hBelow
    · rw [evict_branch_outside hInside] at h
      exact ihRest h

theorem mem_evictBucket {q m : Nat} {point : List α} {own : Bool} {slots : List (Slot α)}
    {e : Eviction α} {s : Slot α} (h : s ∈ (evictBucket q m point own slots e).1) :
    s ∈ slots ∨ (own = true ∧ m = q) ∧ e.pending = some s := by
  unfold evictBucket at h
  split at h
  · rcases mem_evictSlots h with hs | ⟨hOwn, hs⟩
    · exact Or.inl hs
    · rw [Bool.and_eq_true, beq_iff_eq] at hOwn
      exact Or.inr ⟨hOwn, hs⟩
  · exact Or.inl h

/-- An eviction brings in no vector but the newcomer's, and that only on its own path. -/
theorem mem_vectors_evict {q : Nat} {point : List α} {own : Bool} {f : Forest α}
    {e : Eviction α} {v : List α} (h : v ∈ (evict q point own f e).1.vectors) :
    v ∈ f.vectors ∨ own = true ∧ ∃ s, e.pending = some s ∧ s.vector = v := by
  -- the newcomer only moves in where the whole path has its own region
  induction f generalizing q own e with
  | nil => exact Or.inl h
  | leaf m n slots rest ih =>
    rw [evict_leaf, vectors, List.mem_append] at h
    rw [vectors, List.mem_append]
    rcases h with h | h
    · obtain ⟨s, hs, rfl⟩ := List.mem_map.mp h
      rcases mem_evictBucket hs with hs | ⟨⟨hOwn, -⟩, hPending⟩
      · exact Or.inl (Or.inl (List.mem_map.mpr ⟨s, hs, rfl⟩))
      · exact Or.inr ⟨hOwn, s, hPending, rfl⟩
    · rcases ih h with h | ⟨hOwn, s, hPending, hs⟩
      · exact Or.inl (Or.inr h)
      · exact Or.inr ⟨hOwn, s, pending_evictBucket hPending, hs⟩
  | branch m n pivot live children rest ihChildren ihRest =>
    rw [vectors, List.mem_cons, List.mem_append]
    by_cases hInside : isSubregion q m = true
    · rw [evict_branch_inside hInside, vectors, List.mem_cons, List.mem_append] at h
      rcases h with rfl | h | h
      · exact Or.inl (Or.inl rfl)
      · rcases ihChildren h with h | ⟨hOwn, s, hPending, hs⟩
        · exact Or.inl (Or.inr (Or.inl h))
        · rw [pending_evictPivot] at hPending
          exact Or.inr ⟨(Bool.and_eq_true_iff.mp hOwn).1, s, hPending, hs⟩
      · rcases ihRest h with h | ⟨hOwn, s, hPending, hs⟩
        · exact Or.inl (Or.inr (Or.inr h))
        · have hBelow := pending_evict hPending
          rw [pending_evictPivot] at hBelow
          exact Or.inr ⟨hOwn, s, hBelow, hs⟩
    · rw [evict_branch_outside hInside, vectors, List.mem_cons, List.mem_append] at h
      rcases h with rfl | h | h
      · exact Or.inl (Or.inl rfl)
      · exact Or.inl (Or.inr (Or.inl h))
      · rcases ihRest h with h | hNew
        · exact Or.inl (Or.inr (Or.inr h))
        · exact Or.inr hNew

/-- An eviction leaves the forest arranged. -/
theorem arranged_evict {q : Nat} {key : List α → Nat} {point : List α} {own : Bool}
    {f : Forest α} {e : Eviction α} (hArranged : Arranged key f) (hq : key point = q)
    (hPending : ∀ s, e.pending = some s → s.vector = point) :
    Arranged key (evict q point own f e).1 := by
  -- a bucket the newcomer moves into has the region of the newcomer
  induction f generalizing key q own e with
  | nil => trivial
  | leaf m n slots rest ih =>
    obtain ⟨hSlots, hAbove, hRest⟩ := hArranged
    rw [evict_leaf]
    refine ⟨fun s hs => ?_, ?_, ih hRest hq fun s hs => hPending s (pending_evictBucket hs)⟩
    · rcases mem_evictBucket hs with hs | ⟨⟨-, hm⟩, hNew⟩
      · exact hSlots s hs
      · rw [hPending s hNew, hq, hm]
    · rw [regions_evict]
      exact hAbove
  | branch m n pivot live children rest ihChildren ihRest =>
    obtain ⟨⟨hPivot, hBelow⟩, hChildren, hAbove, hRest⟩ := hArranged
    by_cases hInside : isSubregion q m = true
    · rw [evict_branch_inside hInside]
      have hPendingBelow : ∀ s, (evictPivot point live pivot e).pending = some s →
          s.vector = point := by
        rw [pending_evictPivot]
        exact hPending
      refine ⟨⟨hPivot, fun v hv => ?_⟩, ihChildren hChildren rfl hPendingBelow, ?_,
        ihRest hRest hq fun s hs => hPendingBelow s (pending_evict hs)⟩
      · rcases mem_vectors_evict hv with hv | ⟨hOwn, s, hs, rfl⟩
        · exact hBelow v hv
        · rw [Bool.and_eq_true, beq_iff_eq] at hOwn
          rw [hPendingBelow s hs, hq, hOwn.2]
      · rw [regions_evict]
        exact hAbove
    · rw [evict_branch_outside hInside]
      refine ⟨⟨hPivot, hBelow⟩, hChildren, ?_, ihRest hRest hq hPending⟩
      rw [regions_evict]
      exact hAbove

end Forest

-- ---------------------------------------------------------------------------
-- Detaching
-- ---------------------------------------------------------------------------

namespace Forest

theorem regions_detach (solution : Permutation) (vector : List α) (q : Nat) (f : Forest α) :
    (detach solution vector q f).regions = f.regions := by
  induction f with
  | nil => rfl
  | leaf m n slots rest ih =>
    rw [detach]
    split
    · rfl
    · exact congrArg (m :: ·) ih
  | branch m n pivot live children rest _ ih =>
    rw [detach]
    split
    · split <;> rfl
    · exact congrArg (m :: ·) ih

theorem mem_vectors_detach {solution : Permutation} {vector : List α} {q : Nat} {f : Forest α}
    {v : List α} (h : v ∈ (detach solution vector q f).vectors) : v ∈ f.vectors := by
  -- a pivot that is taken out remains as a vector, and so leaves nothing new
  induction f generalizing q with
  | nil => exact h
  | leaf m n slots rest ih =>
    rw [detach] at h
    rw [vectors, List.mem_append]
    split at h
    · rw [vectors, List.mem_append] at h
      rcases h with h | h
      · obtain ⟨s, hs, rfl⟩ := List.mem_map.mp h
        exact Or.inl (List.mem_map.mpr ⟨s, (List.mem_filter.mp hs).1, rfl⟩)
      · exact Or.inr h
    · rw [vectors, List.mem_append] at h
      exact h.imp_right ih
  | branch m n pivot live children rest ihChildren ihRest =>
    rw [detach] at h
    rw [vectors, List.mem_cons, List.mem_append]
    split at h
    · split at h
      · rw [vectors, List.mem_cons, List.mem_append] at h
        exact h
      · rw [vectors, List.mem_cons, List.mem_append] at h
        exact h.imp_right (Or.imp_left ihChildren)
    · rw [vectors, List.mem_cons, List.mem_append] at h
      exact h.imp_right (Or.imp_right ihRest)

/-- A detachment leaves the forest arranged. -/
theorem arranged_detach {solution : Permutation} {vector : List α} {q : Nat}
    {key : List α → Nat} {f : Forest α} (hArranged : Arranged key f) :
    Arranged key (detach solution vector q f) := by
  induction f generalizing key q with
  | nil => trivial
  | leaf m n slots rest ih =>
    obtain ⟨hSlots, hAbove, hRest⟩ := hArranged
    rw [detach]
    split
    · exact ⟨fun s hs => hSlots s (List.mem_filter.mp hs).1, hAbove, hRest⟩
    · refine ⟨hSlots, ?_, ih hRest⟩
      rw [regions_detach]
      exact hAbove
  | branch m n pivot live children rest ihChildren ihRest =>
    obtain ⟨⟨hPivot, hBelow⟩, hChildren, hAbove, hRest⟩ := hArranged
    rw [detach]
    split
    · split
      · exact ⟨⟨hPivot, hBelow⟩, hChildren, hAbove, hRest⟩
      · exact ⟨⟨hPivot, fun v hv => hBelow v (mem_vectors_detach hv)⟩, ihChildren hChildren,
          hAbove, hRest⟩
    · refine ⟨⟨hPivot, hBelow⟩, hChildren, ?_, ihRest hRest⟩
      rw [regions_detach]
      exact hAbove

/-- Exactly the entry of the solution goes. Its vector leads to it. -/
theorem stored_detach {q : Nat} {key : List α → Nat} {f : Forest α} {e : Entry α}
    (hArranged : Arranged key f) (hDistinct : DistinctSolutions f.stored) (he : e ∈ f.stored)
    (hq : key e.vector = q) :
    (detach e.solution e.vector q f).stored =
      f.stored.filter (fun x => x.solution ≠ e.solution) := by
  -- the walk follows the vector, and the entry lies where its vector leads
  induction f generalizing key q with
  | nil => rfl
  | leaf m n slots rest ih =>
    obtain ⟨-, -, hRest⟩ := id hArranged
    rw [stored_leaf] at hDistinct
    rw [detach, stored_leaf]
    split
    · next hm =>
      have heSlots := hArranged.mem_bucket he (hq.trans hm.symm)
      rw [stored_leaf, hDistinct.filter_left heSlots, List.filter_map]
      rfl
    · next hm =>
      have heRest := hArranged.mem_behind_bucket he fun hKey => hm (hKey.symm.trans hq)
      rw [stored_leaf, hDistinct.filter_right heRest, ih hRest hDistinct.append.2.1 heRest hq]
  | branch m n pivot live children rest ihChildren ihRest =>
    obtain ⟨-, hChildren, -, hRest⟩ := id hArranged
    rw [stored_branch] at hDistinct
    obtain ⟨-, hDistinctBelow, -⟩ := hDistinct.append
    obtain ⟨hDistinctChildren, hDistinctRest, -⟩ := hDistinctBelow.append
    rw [detach, stored_branch]
    split
    · next hm =>
      have heHere := hArranged.mem_branch he (hq.trans hm.symm)
      split
      · next hHit =>
        -- the pivot has the solution, so it is the entry
        obtain ⟨rfl, hSame⟩ : live = true ∧ pivot.solution = e.solution := by simpa using hHit
        rw [stored_branch] at he
        obtain rfl : e = pivot.toEntry :=
          hDistinct.eq_of_solution_eq he (by simp) hSame.symm
        rw [stored_branch, hDistinct.filter_left (by simp)]
        simp
      · next hMiss =>
        -- the pivot is not the entry, so it lies below
        have heChildren : e ∈ children.stored := by
          refine heHere.resolve_left fun hePivot => hMiss ?_
          obtain ⟨rfl, rfl⟩ := hePivot
          simp
        rw [stored_branch, hDistinct.filter_right (List.mem_append_left _ heChildren),
          hDistinctBelow.filter_left heChildren,
          ihChildren hChildren hDistinctChildren heChildren rfl]
    · next hm =>
      have heRest := hArranged.mem_behind_branch he fun hKey => hm (hKey.symm.trans hq)
      rw [stored_branch, hDistinct.filter_right (List.mem_append_right _ heRest),
        hDistinctBelow.filter_right heRest, ihRest hRest hDistinctRest heRest hq]

end Forest

end SwapSearch.Pareto
