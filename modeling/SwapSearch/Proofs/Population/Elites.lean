import Mathlib.Data.List.Nodup
import SwapSearch.Population.Elites
import SwapSearch.Proofs.Scalar.Exact

/-!
# SwapSearch — what an elite set keeps

An elite set keeps the best of the solutions that it is offered, as many as it has room
for. What it does not keep is no fitter than anything it keeps, and this it says only
once the set is full.

For this a solution has to be offered with an equal fitness every time, and the fitness
has to be a number. A solution that the set has is declined, whatever its fitness is.

## Results

* `exists_of_lowest` — the lowest member is lowest by fitness.
* `Keeps.offer`      — the set keeps the best, one offer after the other.
* `Keeps.exists_le`  — for everything offered there is an elite that is as fit.
-/

namespace SwapSearch

open OrderedScalar RankedScalar

variable {α : Type} [Scalar α]

-- ---------------------------------------------------------------------------
-- The lowest member
-- ---------------------------------------------------------------------------

namespace Member

omit [Scalar α] in
theorem listed_iff {members : Array (Member α)} {solution : Permutation} :
    listed members solution = true ↔ ∃ e ∈ members, e.solution = solution := by
  unfold listed
  simp only [Array.any_eq_true', decide_eq_true_iff]

variable [OrderedScalar α] [RankedScalar α]

/-- Going through the members, the lowest so far is remembered. -/
theorem foldl_lowest (rest : List (Member α × Nat)) (first : Member α × Nat)
    (hNumbers : ∀ p ∈ first :: rest, Scalar.isNaN p.1.fitness = false) :
    ∃ low ∈ first :: rest, (∀ p ∈ first :: rest, low.1.fitness ≤ p.1.fitness) ∧
      rest.foldl (fun low m => if Graded.totalLt m.1.fitness low.1.fitness then m else low)
        first = low := by
  -- on the members to come, from the lowest so far
  induction rest generalizing first with
  | nil =>
    have hFirst := hNumbers first (List.mem_cons_self ..)
    refine ⟨first, List.mem_cons_self .., ?_, rfl⟩
    exact List.forall_mem_singleton.mpr (le_self hFirst)
  | cons next rest ih =>
    obtain ⟨hFirst, hNext, hRest⟩ := by
      rwa [List.forall_mem_cons, List.forall_mem_cons] at hNumbers
    rw [List.foldl_cons]
    cases hRank : Graded.totalLt next.1.fitness first.1.fitness with
    | true =>
      rw [if_pos rfl]
      obtain ⟨low, hMem, hLowest, hFold⟩ := ih next (List.forall_mem_cons.mpr ⟨hNext, hRest⟩)
      have hHere := hLowest next (List.mem_cons_self ..)
      have hBelow := le_trans hHere (le_of_totalLt hNext hFirst hRank)
      exact ⟨low, List.mem_cons_of_mem _ hMem, List.forall_mem_cons.mpr ⟨hBelow, hLowest⟩, hFold⟩
    | false =>
      rw [if_neg Bool.false_ne_true]
      obtain ⟨low, hMem, hLowest, hFold⟩ := ih first (List.forall_mem_cons.mpr ⟨hFirst, hRest⟩)
      obtain ⟨hHere, hThere⟩ := List.forall_mem_cons.mp hLowest
      have hBelow := le_trans hHere (le_of_not_totalLt hNext hFirst hRank)
      refine ⟨low, ?_, ?_, hFold⟩
      · rcases List.mem_cons.mp hMem with rfl | hMem
        · exact List.mem_cons_self ..
        · exact List.mem_cons_of_mem _ (List.mem_cons_of_mem _ hMem)
      · exact List.forall_mem_cons.mpr ⟨hHere, List.forall_mem_cons.mpr ⟨hBelow, hThere⟩⟩

/-- The member that ranks lowest is lowest by fitness. There is one unless there are no members. -/
theorem exists_of_lowest {members : Array (Member α)}
    (hNumbers : ∀ e ∈ members, Scalar.isNaN e.fitness = false) :
    match lowest? members with
    | none => members.size = 0
    | some low => ∃ worst, members[low]? = some worst ∧
      ∀ e ∈ members, worst.fitness ≤ e.fitness := by
  -- a member is remembered with its place
  have hPlaces : ∀ {p : Member α × Nat}, p ∈ members.toList.zipIdx → members[p.2]? = some p.1 :=
    fun hp => by simpa using List.mem_zipIdx_iff_getElem?.mp hp
  have hMembers : ∀ e ∈ members, ∃ i, (e, i) ∈ members.toList.zipIdx := by
    intro e he
    obtain ⟨i, hi⟩ := List.mem_iff_getElem?.mp (Array.mem_toList_iff.mpr he)
    exact ⟨i, List.mem_zipIdx_iff_getElem?.mpr hi⟩
  unfold lowest?
  cases hZip : members.toList.zipIdx with
  | nil => simpa using congrArg List.length hZip
  | cons first rest =>
    rw [hZip] at hPlaces hMembers
    obtain ⟨low, hMem, hLowest, hFold⟩ := foldl_lowest rest first fun p hp =>
      hNumbers p.1 (Array.mem_of_getElem? (hPlaces hp))
    dsimp only
    rw [hFold]
    refine ⟨low.1, hPlaces hMem, fun e he => ?_⟩
    obtain ⟨i, hi⟩ := hMembers e he
    exact hLowest _ hi

end Member

-- ---------------------------------------------------------------------------
-- Keeping the best
-- ---------------------------------------------------------------------------

namespace EliteSet

/-- The fitness of what is offered is a number, and the same for the same solution. -/
structure Coherent (offers : List (Member α)) : Prop where
  number : ∀ m ∈ offers, Scalar.isNaN m.fitness = false
  same : ∀ m ∈ offers, ∀ m' ∈ offers, m.solution = m'.solution → m.fitness = m'.fitness

/-- The fitness of what is offered is a number, and an equal one for the same solution. Two numbers
may be equal and not the same, as the two zeros are. -/
structure Consistent (offers : List (Member α)) : Prop where
  number : ∀ m ∈ offers, Scalar.isNaN m.fitness = false
  equal : ∀ m ∈ offers, ∀ m' ∈ offers, m.solution = m'.solution → m.fitness ≤ m'.fitness

/-- Fewer offers are so too. -/
theorem Consistent.mono {offers fewer : List (Member α)} (h : Consistent offers)
    (hFewer : fewer ⊆ offers) : Consistent fewer where
  number := fun m hm => h.number m (hFewer hm)
  equal := fun m hm m' hm' => h.equal m (hFewer hm) m' (hFewer hm')

theorem Coherent.consistent [OrderedScalar α] {offers : List (Member α)} (h : Coherent offers) :
    Consistent offers where
  number := h.number
  equal := fun m hm m' hm' hSame => h.same m hm m' hm' hSame ▸ le_self (h.number m hm)

/-- The set has the best of what it has been offered, each solution once. -/
structure Keeps (s : EliteSet α) (offers : List (Member α)) : Prop where
  room : 1 ≤ s.capacity
  size_le : s.size ≤ s.capacity
  offered : ∀ e ∈ s.members, e ∈ offers
  distinct : (s.members.toList.map (·.solution)).Nodup
  kept : ∀ m ∈ offers, (∃ e ∈ s.members, e.solution = m.solution) ∨
    s.size = s.capacity ∧ ∀ e ∈ s.members, m.fitness ≤ e.fitness

variable {s : EliteSet α} {offers : List (Member α)} {m : Member α}

theorem keeps_empty {capacity : Nat} (h : empty capacity = .ok s) : s.Keeps [] := by
  unfold empty at h
  split at h
  · exact nomatch h
  · next hPositive =>
    obtain rfl := Except.ok.inj h
    exact ⟨Nat.pos_of_ne_zero hPositive, Nat.zero_le _, by simp, List.nodup_nil, nofun⟩

namespace Keeps

/-- An offer is declined if the set has the solution, or only fitter members and no room. -/
theorem decline (h : s.Keeps offers) (hKept : (∃ e ∈ s.members, e.solution = m.solution) ∨
    s.size = s.capacity ∧ ∀ e ∈ s.members, m.fitness ≤ e.fitness) : s.Keeps (m :: offers) where
  room := h.room
  size_le := h.size_le
  offered := fun e he => List.mem_cons_of_mem _ (h.offered e he)
  distinct := h.distinct
  kept := List.forall_mem_cons.mpr ⟨hKept, h.kept⟩

/-- While there is room nothing has been declined but what the set has. -/
theorem push (h : s.Keeps offers) (hNew : ¬ ∃ e ∈ s.members, e.solution = m.solution)
    (hRoom : s.size < s.capacity) :
    Keeps { s with members := s.members.push m } (m :: offers) where
  room := h.room
  size_le := by
    show (s.members.push m).size ≤ s.capacity
    rw [Array.size_push]
    exact hRoom
  offered := by
    intro e he
    rcases Array.mem_push.mp he with he | rfl
    · exact List.mem_cons_of_mem _ (h.offered e he)
    · exact List.mem_cons_self ..
  distinct := by
    rw [Array.toList_push, List.map_append, List.map_singleton, List.nodup_append]
    refine ⟨h.distinct, List.nodup_singleton _, ?_⟩
    rintro _ hThere _ hHere rfl
    obtain ⟨e, he, hSame⟩ := List.mem_map.mp hThere
    exact hNew ⟨e, Array.mem_toList_iff.mp he, hSame.trans (List.mem_singleton.mp hHere)⟩
  kept := by
    refine List.forall_mem_cons.mpr ⟨Or.inl ⟨m, Array.mem_push_self, rfl⟩, fun x hx => ?_⟩
    rcases h.kept x hx with ⟨e, he, hSame⟩ | ⟨hFull, -⟩
    · exact Or.inl ⟨e, Array.mem_push_of_mem _ he, hSame⟩
    · exact absurd hFull hRoom.ne

/-- What is displaced is no fitter than what stays or comes. -/
theorem replace [OrderedScalar α] {low : Nat} {worst : Member α} (h : s.Keeps offers)
    (hConsistent : Consistent offers) (hNew : ¬ ∃ e ∈ s.members, e.solution = m.solution)
    (hFull : s.size = s.capacity) (hWorst : s.members[low]? = some worst)
    (hLowest : ∀ e ∈ s.members, worst.fitness ≤ e.fitness) (hFitter : worst.fitness < m.fitness) :
    Keeps { s with members := s.members.setIfInBounds low m } (m :: offers) := by
  have hLow : low < s.members.size := (Array.getElem?_eq_some_iff.mp hWorst).1
  have hAbove : worst.fitness ≤ m.fitness := le_of_lt hFitter
  have hThere : worst ∈ s.members := Array.mem_of_getElem? hWorst
  have hMembers : ∀ e ∈ s.members.setIfInBounds low m, e ∈ s.members ∨ e = m :=
    fun e he => Array.mem_or_eq_of_mem_setIfInBounds he
  -- only the displaced member leaves
  have hStay : ∀ e ∈ s.members, e = worst ∨ e ∈ s.members.setIfInBounds low m := by
    intro e he
    obtain ⟨i, hi⟩ := Array.mem_iff_getElem?.mp he
    by_cases hEq : low = i
    · subst hEq
      exact Or.inl (Option.some.inj (hi.symm.trans hWorst))
    · refine Or.inr (Array.mem_of_getElem? (i := i) ?_)
      rwa [Array.getElem?_setIfInBounds_ne hEq]
  have hCome : m ∈ s.members.setIfInBounds low m :=
    Array.mem_of_getElem? (Array.getElem?_setIfInBounds_self_of_lt hLow)
  refine ⟨h.room, ?_, fun e he => ?_, ?_, ?_⟩
  · show (s.members.setIfInBounds low m).size ≤ s.capacity
    rw [Array.size_setIfInBounds]
    exact h.size_le
  · rcases hMembers e he with he | rfl
    · exact List.mem_cons_of_mem _ (h.offered e he)
    · exact List.mem_cons_self ..
  · rw [Array.toList_setIfInBounds, List.map_set]
    refine h.distinct.set fun hMem => ?_
    obtain ⟨e, he, hSame⟩ := List.mem_map.mp hMem
    exact hNew ⟨e, Array.mem_toList_iff.mp he, hSame⟩
  · have hSize : (s.members.setIfInBounds low m).size = s.capacity := by
      rw [Array.size_setIfInBounds]
      exact hFull
    refine List.forall_mem_cons.mpr ⟨Or.inl ⟨m, hCome, rfl⟩, fun x hx => ?_⟩
    -- what is at most as fit as the displaced member is at most as fit as all that are there now
    have hBelow : x.fitness ≤ worst.fitness →
        ∀ e ∈ s.members.setIfInBounds low m, x.fitness ≤ e.fitness := by
      intro hLe e he
      rcases hMembers e he with he | rfl
      · exact le_trans hLe (hLowest e he)
      · exact le_trans hLe hAbove
    rcases h.kept x hx with ⟨e, he, hSame⟩ | ⟨-, hLe⟩
    · rcases hStay e he with rfl | hStays
      · exact Or.inr ⟨hSize, hBelow (hConsistent.equal x hx e (h.offered e he) hSame.symm)⟩
      · exact Or.inl ⟨e, hStays, hSame⟩
    · exact Or.inr ⟨hSize, hBelow (hLe worst hThere)⟩

/-- **An offer.** -/
theorem offer [OrderedScalar α] [RankedScalar α] (h : s.Keeps offers)
    (hConsistent : Consistent (m :: offers)) : (s.offer m).2.Keeps (m :: offers) := by
  obtain ⟨hNumber, hNumbers⟩ := List.forall_mem_cons.mp hConsistent.number
  unfold EliteSet.offer
  -- known to the set, or room left, or the lowest member has to give way
  split
  · next hListed => exact h.decline (Or.inl (Member.listed_iff.mp hListed))
  · next hNew =>
    rw [Member.listed_iff] at hNew
    split
    · next hRoom => exact h.push hNew hRoom
    · next hNoRoom =>
      have hFull : s.size = s.capacity := Nat.le_antisymm h.size_le (Nat.not_lt.mp hNoRoom)
      have hMember : ∀ e ∈ s.members, Scalar.isNaN e.fitness = false :=
        fun e he => hNumbers e (h.offered e he)
      have hLowest := Member.exists_of_lowest hMember
      unfold displace
      split
      · next hNone =>
        rw [hNone] at hLowest
        have hEmpty : s.size = 0 := hLowest
        have := h.room
        omega
      · next low hSome =>
        rw [hSome] at hLowest
        obtain ⟨worst, hWorst, hLowest⟩ := hLowest
        rw [hWorst, Option.any_some]
        split
        · next hFitter =>
          have hBefore := hConsistent.mono (List.subset_cons_self ..)
          exact h.replace hBefore hNew hFull hWorst hLowest (of_decide_eq_true hFitter)
        · next hNot =>
          have hWorstNumber := hMember worst (Array.mem_of_getElem? hWorst)
          -- no fitter than the lowest, hence than any elite
          have hBelow : m.fitness ≤ worst.fitness :=
            (not_lt_iff_le hWorstNumber hNumber).mp fun hLt => hNot (decide_eq_true hLt)
          exact h.decline (Or.inr ⟨hFull, fun e he => le_trans hBelow (hLowest e he)⟩)

/-- For everything that has been offered there is an elite that is as fit. -/
theorem exists_le (h : s.Keeps offers) (hConsistent : Consistent offers)
    (hm : m ∈ offers) : ∃ e ∈ s.members, m.fitness ≤ e.fitness := by
  rcases h.kept m hm with ⟨e, he, hSame⟩ | ⟨hFull, hLe⟩
  · exact ⟨e, he, hConsistent.equal m hm e (h.offered e he) hSame.symm⟩
  · have hSome : 0 < s.members.size := by
      have := h.room
      unfold size at hFull
      omega
    exact ⟨s.members[0], Array.getElem_mem hSome, hLe _ (Array.getElem_mem hSome)⟩

end Keeps

end EliteSet

end SwapSearch
