import SwapSearch.Pareto.Archive
import SwapSearch.Proofs.Pareto.Placement
import SwapSearch.Proofs.Pareto.Removal

/-!
# SwapSearch — the archive as a plain list

What the archive does can be said without a tree. A *roster* is the list of the
retained entries, newest first, and an offer to it compares the newcomer with every
one of them. The archive simulates the roster: offered the same pairs in the same
order, the two give the same answers and hold the same entries, whatever the
capacity of a bucket.

The simulation relation is `Represents`. It holds of an empty archive and an empty
roster, and an offer preserves it and is answered alike (`represents_offered`). Its
two clauses about entries feed each other: the forest must be arranged for an
eviction to find all that the newcomer dominates, and what is left must be an
antichain for a split to drop nothing.

## Results

* `Represents.offer_represented` — the three passes of an offer, against the roster.
* `represents_offered`           — one offer, malformed or not, against the roster.
* `run_eq_roster`                — whole histories.
-/

namespace SwapSearch.Pareto

variable {α : Type} [Scalar α]

-- ---------------------------------------------------------------------------
-- Histories
-- ---------------------------------------------------------------------------

/-- The answer to an offer and the state after it. A rejected offer changes nothing. -/
def settle {σ : Type} (before : σ) :
    Except Rejection (Bool × σ) → Except Rejection Bool × σ
  | .ok (answer, after) => (.ok answer, after)
  | .error reason => (.error reason, before)

/-- The answers to a sequence of offers and the state after the last. -/
def replies {σ : Type} (offered : σ → Entry α → Except Rejection Bool × σ) :
    σ → List (Entry α) → List (Except Rejection Bool) × σ
  | state, [] => ([], state)
  | state, entry :: rest =>
    let (answer, state) := offered state entry
    let (answers, state) := replies offered state rest
    (answer :: answers, state)

omit [Scalar α] in
/-- Where single offers are answered alike and preserve a relation, so are whole histories. -/
theorem replies_simulation {σ τ : Type} {f : σ → Entry α → Except Rejection Bool × σ}
    {g : τ → Entry α → Except Rejection Bool × τ} {R : σ → τ → Prop}
    (hStep : ∀ s t e, R s t → (f s e).1 = (g t e).1 ∧ R (f s e).2 (g t e).2)
    {s : σ} {t : τ} (h : R s t) (offers : List (Entry α)) :
    (replies f s offers).1 = (replies g t offers).1 ∧
      R (replies f s offers).2 (replies g t offers).2 := by
  induction offers generalizing s t with
  | nil => exact ⟨rfl, h⟩
  | cons e rest ih =>
    obtain ⟨hAnswer, hNext⟩ := hStep s t e h
    obtain ⟨hAnswers, hLast⟩ := ih hNext
    refine ⟨?_, hLast⟩
    show (f s e).1 :: (replies f (f s e).2 rest).1 = (g t e).1 :: (replies g (g t e).2 rest).1
    rw [hAnswer, hAnswers]

/-- An offer to the archive. -/
def Archive.offered (a : Archive α) (entry : Entry α) : Except Rejection Bool × Archive α :=
  settle a (a.insert entry.solution entry.vector)

/-- A history of offers to the archive. -/
def Archive.run (a : Archive α) (offers : List (Entry α)) :
    List (Except Rejection Bool) × Archive α :=
  replies Archive.offered a offers

namespace Roster

/-- Offers a pair to a roster that does not hold the solution. -/
def offer (roster : List (Entry α)) (entry : Entry α) : Bool × List (Entry α) :=
  if roster.any fun x => weaklyDominates x.vector entry.vector then (false, roster)
  else (true, entry :: roster.filter fun x => !dominates entry.vector x.vector)

/-- Offers a pair to the roster of an archive for `d` objectives. -/
def insert (d : Nat) (roster : List (Entry α)) (entry : Entry α) :
    Except Rejection (Bool × List (Entry α)) :=
  if entry.vector.length ≠ d then .error (.dimensionMismatch d entry.vector.length)
  else if ¬ entry.vector.all Scalar.isFinite then .error .nonFiniteObjective
  else if roster.any fun x =>
      decide (x.solution = entry.solution) && Scalar.sameVector x.vector entry.vector then
    .ok (false, roster)
  else .ok (offer (roster.filter fun x => x.solution ≠ entry.solution) entry)

/-- An offer to a roster. -/
def offered (d : Nat) (roster : List (Entry α)) (entry : Entry α) :
    Except Rejection Bool × List (Entry α) :=
  settle roster (insert d roster entry)

/-- An offer brings in nothing but itself. -/
theorem mem_of_offered {d : Nat} {roster : List (Entry α)} {entry x : Entry α}
    (h : x ∈ (offered d roster entry).2) : x = entry ∨ x ∈ roster := by
  unfold offered insert at h
  split at h
  · exact Or.inr h
  · split at h
    · exact Or.inr h
    · split at h
      · exact Or.inr h
      · unfold offer at h
        split at h
        · exact Or.inr (List.mem_of_mem_filter h)
        · refine (List.mem_cons.mp h).imp_right fun hx => ?_
          exact List.mem_of_mem_filter (List.mem_of_mem_filter hx)

/-- A history of offers to an empty roster. -/
def run (d : Nat) (offers : List (Entry α)) :
    List (Except Rejection Bool) × List (Entry α) :=
  replies (offered d) [] offers

end Roster

-- ---------------------------------------------------------------------------
-- Offers that are not covered
-- ---------------------------------------------------------------------------

section Offer

variable {a : Archive α} {entry : Entry α} {forest : Forest α} {eviction : Eviction α}

/-- The newcomer took the place of an entry that the eviction removed. -/
theorem Archive.offer_moved (hCover : a.forest.cover 0 entry.vector = none)
    (hEvict : a.forest.evict 0 entry.vector true ⟨some ⟨entry, 0⟩, []⟩ = (forest, eviction))
    (hPending : eviction.pending = none) :
    a.offer entry = (true, { a with
      forest
      retained := entry :: ((a.retained.filter (·.solution ∉ eviction.gone)).filter
        (·.solution ∉ [entry.solution])) }) := by
  simp only [Archive.offer, hCover, hEvict, hPending, Archive.forget]

/-- The newcomer is placed after the eviction. -/
theorem Archive.offer_placed {slot : Slot α} (hCover : a.forest.cover 0 entry.vector = none)
    (hEvict : a.forest.evict 0 entry.vector true ⟨some ⟨entry, 0⟩, []⟩ = (forest, eviction))
    (hPending : eviction.pending = some slot) :
    a.offer entry = (true, { a with
      forest := (forest.place a.capacity slot 0 a.serial).forest
      serial := (forest.place a.capacity slot 0 a.serial).serial
      retained := entry :: (((a.retained.filter (·.solution ∉ eviction.gone)).filter
        (·.solution ∉ (forest.place a.capacity slot 0 a.serial).dropped)).filter
          (·.solution ∉ [entry.solution])) }) := by
  simp only [Archive.offer, hCover, hEvict, hPending, Archive.forget]

end Offer

/-- What a newcomer leaves of an antichain that does not cover it is an antichain together with
it. -/
theorem antichain_cons [OrderedScalar α] {d : Nat} {roster : List (Entry α)} {entry : Entry α}
    (hPoint : IsPoint d entry.vector) (hPoints : ∀ x ∈ roster, IsPoint d x.vector)
    (hAntichain : Antichain roster)
    (hUncovered : ∀ x ∈ roster, weaklyDominates x.vector entry.vector = false) :
    Antichain (entry :: roster.filter fun x => !dominates entry.vector x.vector) := by
  refine List.pairwise_cons.mpr
    ⟨fun x hx => ?_, List.Pairwise.sublist List.filter_sublist hAntichain⟩
  obtain ⟨hMem, hKept⟩ := List.mem_filter.mp hx
  have hNot : weaklyDominates x.vector entry.vector = false := hUncovered x hMem
  refine ⟨?_, hNot⟩
  cases hWeak : weaklyDominates entry.vector x.vector with
  | false => rfl
  | true =>
    have hDom := (hPoint.dominates_iff (hPoints x hMem)).mpr ⟨hWeak, hNot⟩
    rw [hDom] at hKept
    exact absurd hKept (by decide)

-- ---------------------------------------------------------------------------
-- The simulation relation
-- ---------------------------------------------------------------------------

/-- The archive holds what is on the roster, in a forest that it can rely on. -/
structure Represents (d : Nat) (a : Archive α) (roster : List (Entry α)) : Prop where
  dimensions : a.dimensions = d
  retained : a.retained = roster
  arranged : a.forest.Arranged fun _ => 0
  points : ∀ v ∈ a.forest.vectors, IsPoint d v
  stored : a.forest.stored.Perm roster
  distinct : DistinctSolutions roster
  antichain : Antichain roster

namespace Represents

variable {d : Nat} {a : Archive α} {roster : List (Entry α)}

theorem point (h : Represents d a roster) {x : Entry α} (hx : x ∈ roster) : IsPoint d x.vector :=
  h.points _ (Forest.vector_mem_of_stored (h.stored.mem_iff.mpr hx))

theorem storedDistinct (h : Represents d a roster) : DistinctSolutions a.forest.stored :=
  h.distinct.perm h.stored.symm

theorem contains_eq (h : Represents d a roster) (solution : Permutation) :
    a.contains solution = roster.any fun x => x.solution = solution := by
  rw [Archive.contains, Archive.find?, h.retained, List.isSome_find?]

theorem size_eq (h : Represents d a roster) : a.size = roster.length :=
  congrArg List.length h.retained

theorem entries_perm (h : Represents d a roster) : a.entries.Perm roster :=
  (Forest.entries_perm a.forest).trans h.stored

-- ---------------------------------------------------------------------------
-- Single operations
-- ---------------------------------------------------------------------------

theorem raiseIdeal (h : Represents d a roster) (vector : List α) :
    Represents d (a.raiseIdeal vector) roster :=
  ⟨h.dimensions, h.retained, h.arranged, h.points, h.stored, h.distinct, h.antichain⟩

theorem detach (h : Represents d a roster) {previous : Entry α} (hPrevious : previous ∈ roster) :
    Represents d (a.detach previous)
      (roster.filter fun x => x.solution ≠ previous.solution) where
  dimensions := h.dimensions
  retained := by
    show a.retained.filter (fun x => x.solution ∉ [previous.solution]) = _
    rw [h.retained]
    simp
  arranged := Forest.arranged_detach h.arranged
  points v hv := h.points v (Forest.mem_vectors_detach hv)
  stored := by
    have hStored := Forest.stored_detach h.arranged h.storedDistinct
      (h.stored.mem_iff.mpr hPrevious) rfl
    show (a.forest.detach previous.solution previous.vector 0).stored.Perm _
    rw [hStored]
    exact h.stored.filter _
  distinct := h.distinct.sublist List.filter_sublist
  antichain := List.Pairwise.sublist List.filter_sublist h.antichain

/-- Crediting the cover leaves the entries alone. -/
theorem of_cover (h : Represents d a roster) {q : Nat} {point : List α} {forest : Forest α}
    (hCover : a.forest.cover q point = some forest) :
    Represents d { a with forest } roster := by
  have hSimilar := Forest.similar_of_cover hCover
  exact ⟨h.dimensions, h.retained, hSimilar.arranged h.arranged,
    fun v hv => h.points v (hSimilar.vectors_perm.mem_iff.mp hv),
    hSimilar.stored_perm.trans h.stored, h.distinct, h.antichain⟩

/-- Striking off the solutions that an eviction reports strikes off what is dominated. -/
theorem filter_gone (h : Represents d a roster) {entry : Entry α} {gone : List Permutation}
    (hGone : ∀ s, s ∈ gone ↔
      ∃ x ∈ roster, dominates entry.vector x.vector = true ∧ x.solution = s) :
    roster.filter (fun x => x.solution ∉ gone) =
      roster.filter fun x => !dominates entry.vector x.vector := by
  refine List.filter_congr fun x hx => ?_
  rw [Bool.eq_iff_iff, decide_eq_true_iff, hGone, Bool.not_eq_true', ← Bool.not_eq_true]
  refine not_congr ⟨?_, ?_⟩
  · rintro ⟨y, hy, hDom, hSame⟩
    exact h.distinct.eq_of_solution_eq hy hx hSame ▸ hDom
  · exact fun hDom => ⟨x, hx, hDom, rfl⟩

section Offer

variable [OrderedScalar α] {entry : Entry α}

/-- The search for a cover sees exactly what is on the roster. -/
theorem cover_isSome (h : Represents d a roster) (hPoint : IsPoint d entry.vector) :
    (a.forest.cover 0 entry.vector).isSome =
      roster.any fun x => weaklyDominates x.vector entry.vector := by
  cases hCover : a.forest.cover 0 entry.vector with
  | none =>
    have hNone := Forest.not_covered_of_cover (isRegionKey_const d 0) h.arranged h.points hPoint
      rfl hCover
    symm
    rw [Option.isSome_none, List.any_eq_false]
    intro x hx
    rw [hNone x (h.stored.mem_iff.mpr hx)]
    exact Bool.false_ne_true
  | some forest =>
    obtain ⟨x, hx, hCovers⟩ := Forest.exists_of_cover hCover
    symm
    rw [Option.isSome_some, List.any_eq_true]
    exact ⟨x, h.stored.mem_iff.mp hx, hCovers⟩

/-- Where the search finds no cover there is none on the roster. -/
theorem uncovered (h : Represents d a roster) (hPoint : IsPoint d entry.vector)
    (hCover : a.forest.cover 0 entry.vector = none) :
    ∀ x ∈ roster, weaklyDominates x.vector entry.vector = false := by
  have hNone := h.cover_isSome hPoint
  rw [hCover, Option.isSome_none] at hNone
  exact fun x hx => Bool.eq_false_iff.mpr (List.any_eq_false.mp hNone.symm x hx)

/-- What an eviction leaves behind, before the newcomer is placed. -/
theorem evict_represented (h : Represents d a roster) (hPoint : IsPoint d entry.vector)
    {forest : Forest α} {eviction : Eviction α}
    (hEvict : a.forest.evict 0 entry.vector true ⟨some ⟨entry, 0⟩, []⟩ = (forest, eviction)) :
    forest.Arranged (fun _ => 0) ∧ (∀ v ∈ forest.vectors, IsPoint d v) ∧
      (forest.stored ++ eviction.waiting).Perm
        ((roster.filter fun x => !dominates entry.vector x.vector) ++ [entry]) ∧
      roster.filter (fun x => x.solution ∉ eviction.gone) =
        (roster.filter fun x => !dominates entry.vector x.vector) ∧
      (eviction.pending = some ⟨entry, 0⟩ ∨ eviction.pending = none) := by
  obtain ⟨rfl, rfl⟩ := Prod.mk.inj hEvict
  have hEvicted : Evicted entry.vector true a.forest.stored
      (a.forest.evict 0 entry.vector true ⟨some ⟨entry, 0⟩, []⟩).1.stored ⟨some ⟨entry, 0⟩, []⟩
      (a.forest.evict 0 entry.vector true ⟨some ⟨entry, 0⟩, []⟩).2 :=
    Forest.evicted_evict _ (isRegionKey_const d 0) h.arranged h.points hPoint rfl
  refine ⟨?_, fun v hv => ?_, ?_, ?_, ?_⟩
  · refine Forest.arranged_evict h.arranged rfl fun s hs => ?_
    obtain rfl := Option.some.inj hs
    rfl
  · rcases Forest.mem_vectors_evict hv with hv | ⟨-, s, hs, rfl⟩
    · exact h.points v hv
    · obtain rfl := Option.some.inj hs
      exact hPoint
  · exact hEvicted.entries.trans ((h.stored.filter _).append_right _)
  · -- the solutions that are gone are those of the dominated entries
    refine h.filter_gone fun s => ?_
    rw [hEvicted.gone]
    constructor
    · rintro (hNone | ⟨x, hx, hDom⟩)
      · exact absurd hNone List.not_mem_nil
      · exact ⟨x, h.stored.mem_iff.mp hx, hDom⟩
    · rintro ⟨x, hx, hDom⟩
      exact Or.inr ⟨x, h.stored.mem_iff.mpr hx, hDom⟩
  · exact hEvicted.pending.imp_right fun hp => hp.2

/-- A newcomer that still waits after the eviction is placed, and nothing is lost. -/
theorem placed_waiting (h : Represents d a roster) (hPoint : IsPoint d entry.vector)
    (hUncovered : ∀ x ∈ roster, weaklyDominates x.vector entry.vector = false)
    {forest : Forest α} {eviction : Eviction α}
    (hEvict : a.forest.evict 0 entry.vector true ⟨some ⟨entry, 0⟩, []⟩ = (forest, eviction))
    (hPending : eviction.pending = some ⟨entry, 0⟩) :
    forest.stored.Perm (roster.filter fun x => !dominates entry.vector x.vector) ∧
      Forest.Placed (fun _ => 0) ⟨entry, 0⟩ forest
        (forest.place a.capacity ⟨entry, 0⟩ 0 a.serial) := by
  obtain ⟨hArranged, hPoints, hStored, -, -⟩ := h.evict_represented hPoint hEvict
  have hLeft : forest.stored.Perm
      (roster.filter fun x => !dominates entry.vector x.vector) := by
    refine (List.perm_append_right_iff [entry]).mp ?_
    simpa [Eviction.waiting, hPending] using hStored
  have hAntichain := antichain_cons hPoint (fun _ hx => h.point hx) h.antichain hUncovered
  exact ⟨hLeft, Forest.placed_place _ _ hArranged rfl hPoints hPoint
    (hAntichain.perm (hLeft.cons entry).symm)⟩

/-- A newcomer that is not covered comes on the roster, in place of what it dominates. -/
theorem offer_uncovered (h : Represents d a roster) (hPoint : IsPoint d entry.vector)
    (hNew : ∀ x ∈ roster, x.solution ≠ entry.solution)
    (hUncovered : ∀ x ∈ roster, weaklyDominates x.vector entry.vector = false) :
    (a.offer entry).1 = true ∧
      Represents d (a.offer entry).2
        (entry :: roster.filter fun x => !dominates entry.vector x.vector) := by
  have hCover : a.forest.cover 0 entry.vector = none := by
    rw [← Option.not_isSome_iff_eq_none, h.cover_isSome hPoint, List.any_eq_true]
    rintro ⟨x, hx, hCovers⟩
    exact absurd ((hUncovered x hx).symm.trans hCovers) Bool.false_ne_true
  have hAntichain := antichain_cons hPoint (fun _ hx => h.point hx) h.antichain hUncovered
  -- no retained entry has the solution of the newcomer
  have hForget : (roster.filter fun x => !dominates entry.vector x.vector).filter
      (fun x => x.solution ∉ [entry.solution]) =
        roster.filter fun x => !dominates entry.vector x.vector := by
    refine List.filter_eq_self.mpr fun x hx => ?_
    simpa using hNew x (List.mem_filter.mp hx).1
  have hDistinct : DistinctSolutions
      (entry :: roster.filter fun x => !dominates entry.vector x.vector) := by
    refine List.nodup_cons.mpr ⟨fun hMem => ?_, h.distinct.sublist List.filter_sublist⟩
    obtain ⟨x, hx, hSame⟩ := List.mem_map.mp hMem
    exact hNew x (List.mem_filter.mp hx).1 hSame
  obtain ⟨⟨forest, eviction⟩, hEvict⟩ :
      ∃ result, a.forest.evict 0 entry.vector true ⟨some ⟨entry, 0⟩, []⟩ = result := ⟨_, rfl⟩
  obtain ⟨hArranged, hPoints, hStored, hGone, hPending⟩ := h.evict_represented hPoint hEvict
  -- the newcomer still waits and is placed, or it has moved in while evicting
  rcases hPending with hPending | hPending
  · obtain ⟨hLeft, hPlace⟩ := h.placed_waiting hPoint hUncovered hEvict hPending
    rw [Archive.offer_placed hCover hEvict hPending]
    refine ⟨rfl, h.dimensions, ?_, hPlace.arranged, fun v hv => ?_,
      hPlace.stored.trans (hLeft.cons entry), hDistinct, hAntichain⟩
    · have hNothing : ∀ l : List (Entry α), l.filter (fun x => x.solution ∉ []) = l :=
        fun l => List.filter_eq_self.mpr fun x _ => by simp
      show entry :: _ = _
      rw [h.retained, hGone, hPlace.dropped, hNothing, hForget]
    · rcases hPlace.vectors v hv with rfl | hv
      · exact hPoint
      · exact hPoints v hv
  · have hLeft : forest.stored.Perm
        (entry :: roster.filter fun x => !dominates entry.vector x.vector) := by
      have hMoved := hStored.trans List.perm_append_comm
      simpa [Eviction.waiting, hPending] using hMoved
    rw [Archive.offer_moved hCover hEvict hPending]
    refine ⟨rfl, h.dimensions, ?_, hArranged, hPoints, hLeft, hDistinct, hAntichain⟩
    show entry :: _ = _
    rw [h.retained, hGone, hForget]

theorem offer_represented (h : Represents d a roster) (hPoint : IsPoint d entry.vector)
    (hNew : ∀ x ∈ roster, x.solution ≠ entry.solution) :
    (a.offer entry).1 = (Roster.offer roster entry).1 ∧
      Represents d (a.offer entry).2 (Roster.offer roster entry).2 := by
  cases hAny : roster.any fun x => weaklyDominates x.vector entry.vector with
  | true =>
    have hSome := (h.cover_isSome hPoint).trans hAny
    obtain ⟨forest, hCover⟩ := Option.isSome_iff_exists.mp hSome
    simp only [Archive.offer, Roster.offer, hCover, hAny, if_true]
    exact ⟨trivial, h.of_cover hCover⟩
  | false =>
    have hUncovered : ∀ x ∈ roster, weaklyDominates x.vector entry.vector = false :=
      fun x hx => Bool.eq_false_iff.mpr (List.any_eq_false.mp hAny x hx)
    unfold Roster.offer
    rw [hAny]
    exact h.offer_uncovered hPoint hNew hUncovered

end Offer

end Represents

-- ---------------------------------------------------------------------------
-- Giving up an entry
-- ---------------------------------------------------------------------------

/-- The archive that a solution is offered to: the entry it may have already is given up. -/
def Archive.vacated (a : Archive α) (solution : Permutation) : Archive α :=
  match a.find? solution with
  | some previous => a.detach previous
  | none => a

namespace Represents

variable {d : Nat} {a : Archive α} {roster : List (Entry α)}

/-- A detachment removes the entry it is asked to remove, and nothing else. -/
theorem detach_perm (h : Represents d a roster) {e : Entry α} (he : e ∈ roster) :
    (e :: (a.detach e).forest.stored).Perm a.forest.stored := by
  have hStored := h.stored.mem_iff.mpr he
  show (e :: (a.forest.detach e.solution e.vector 0).stored).Perm _
  rw [Forest.stored_detach h.arranged h.storedDistinct hStored rfl]
  exact h.storedDistinct.cons_filter_perm hStored

/-- An archive that gives up an entry still represents a roster. -/
theorem vacated (h : Represents d a roster) (solution : Permutation) :
    ∃ roster', Represents d (a.vacated solution) roster' := by
  unfold Archive.vacated
  cases hFind : a.find? solution with
  | none => exact ⟨roster, h⟩
  | some previous =>
    rw [Archive.find?, h.retained] at hFind
    exact ⟨_, h.detach (List.mem_of_find?_eq_some hFind)⟩

end Represents

-- ---------------------------------------------------------------------------
-- Whole offers
-- ---------------------------------------------------------------------------

section Simulation

variable {d : Nat} {a : Archive α} {roster : List (Entry α)} {entry : Entry α}

theorem Archive.insert_of_error {solution : Permutation} {vector : List α} {reason : Rejection}
    (h : a.requireVector vector = .error reason) :
    a.insert solution vector = .error reason := by
  unfold Archive.insert
  rw [h]
  rfl

/-- A solution that is retained gives up its entry before it is offered again. -/
theorem Archive.insert_of_ok {solution : Permutation} {vector : List α}
    (h : a.requireVector vector = .ok ()) :
    a.insert solution vector = .ok (
      match a.find? solution with
      | some previous =>
        if Scalar.sameVector previous.vector vector then (false, a.raiseIdeal vector)
        else ((a.raiseIdeal vector).detach previous).offer ⟨solution, vector⟩
      | none => (a.raiseIdeal vector).offer ⟨solution, vector⟩) := by
  unfold Archive.insert
  rw [h]
  show (match a.find? solution with | some previous => _ | none => _) = _
  cases a.find? solution with
  | none => rfl
  | some previous =>
    dsimp only
    split <;> rfl

/-- A well-formed offer is answered alike and keeps the roster. -/
theorem insert_represented [OrderedScalar α] (h : Represents d a roster)
    (hPoint : IsPoint d entry.vector) :
    ∃ answer a' roster', a.insert entry.solution entry.vector = .ok (answer, a') ∧
      Roster.insert d roster entry = .ok (answer, roster') ∧ Represents d a' roster' := by
  have hValid : a.requireVector entry.vector = .ok () := by
    unfold Archive.requireVector Pareto.requireVector
    rw [h.dimensions, if_neg (not_not_intro hPoint.1), if_pos (List.all_eq_true.mpr hPoint.2)]
  have hFind : a.find? entry.solution = roster.find? (·.solution = entry.solution) := by
    rw [Archive.find?, h.retained]
  rw [Archive.insert_of_ok hValid, hFind]
  unfold Roster.insert
  rw [if_neg (not_not_intro hPoint.1), if_neg (not_not_intro (List.all_eq_true.mpr hPoint.2)),
    h.distinct.any_solution entry.solution fun x => Scalar.sameVector x.vector entry.vector]
  -- the solution is new, or it is known with this vector, or with another
  cases hPrevious : roster.find? (·.solution = entry.solution) with
  | none =>
    have hNew : ∀ x ∈ roster, x.solution ≠ entry.solution := by
      intro x hx
      simpa using List.find?_eq_none.mp hPrevious x hx
    obtain ⟨hAnswer, hAfter⟩ := (h.raiseIdeal entry.vector).offer_represented hPoint hNew
    rw [filter_solution_eq_self hNew]
    exact ⟨_, _, _, rfl, congrArg Except.ok (Prod.ext hAnswer.symm rfl), hAfter⟩
  | some previous =>
    have hMem : previous ∈ roster := List.mem_of_find?_eq_some hPrevious
    have hSolution : previous.solution = entry.solution := by
      simpa using List.find?_some hPrevious
    rw [Option.any_some]
    dsimp only
    cases Scalar.sameVector previous.vector entry.vector with
    | true => exact ⟨_, _, _, rfl, rfl, h.raiseIdeal entry.vector⟩
    | false =>
      -- the old entry leaves the tree before the new one is offered
      have hDetached := (h.raiseIdeal entry.vector).detach hMem
      rw [hSolution] at hDetached
      have hNew : ∀ x ∈ roster.filter (fun x => x.solution ≠ entry.solution),
          x.solution ≠ entry.solution := by
        intro x hx
        simpa using (List.mem_filter.mp hx).2
      obtain ⟨hAnswer, hAfter⟩ := hDetached.offer_represented hPoint hNew
      exact ⟨_, _, _, rfl, congrArg Except.ok (Prod.ext hAnswer.symm rfl), hAfter⟩

/-- Any offer, malformed or not, is answered alike and keeps the roster. -/
theorem represents_offered [OrderedScalar α] (h : Represents d a roster) (entry : Entry α) :
    (a.offered entry).1 = (Roster.offered d roster entry).1 ∧
      Represents d (a.offered entry).2 (Roster.offered d roster entry).2 := by
  unfold Archive.offered Roster.offered
  -- the checks are the same on both sides and come in the same order
  by_cases hLength : entry.vector.length = d
  · by_cases hFinite : entry.vector.all Scalar.isFinite = true
    · have hPoint : IsPoint d entry.vector := ⟨hLength, List.all_eq_true.mp hFinite⟩
      obtain ⟨answer, a', roster', hArchive, hRoster, hAfter⟩ := insert_represented h hPoint
      rw [hArchive, hRoster]
      exact ⟨rfl, hAfter⟩
    · have hReject : a.requireVector entry.vector = .error .nonFiniteObjective := by
        unfold Archive.requireVector Pareto.requireVector
        rw [h.dimensions, if_neg (not_not_intro hLength), if_neg hFinite]
      rw [Archive.insert_of_error hReject, Roster.insert, if_neg (not_not_intro hLength),
        if_pos hFinite]
      exact ⟨rfl, h⟩
  · have hReject : a.requireVector entry.vector =
        .error (.dimensionMismatch d entry.vector.length) := by
      unfold Archive.requireVector Pareto.requireVector
      rw [h.dimensions, if_pos hLength]
    rw [Archive.insert_of_error hReject, Roster.insert, if_pos hLength]
    exact ⟨rfl, h⟩

/-- An archive can be created for 1 to 64 objectives, and it is empty. -/
theorem exists_empty {capacity : Nat} (hDimensions : 1 ≤ d ∧ d ≤ 64) (hCapacity : 1 ≤ capacity) :
    ∃ a : Archive α, Archive.empty d capacity = .ok a ∧ Represents d a [] := by
  unfold Archive.empty
  rw [if_neg (by omega), if_neg (by omega)]
  exact ⟨_, rfl, rfl, rfl, ⟨by simp, by simp [Forest.regions], trivial⟩,
    by simp [Forest.vectors], List.Perm.refl _, List.nodup_nil, List.Pairwise.nil⟩

/-- So is a history of offers. -/
theorem represents_run [OrderedScalar α] (h : Represents d a []) (offers : List (Entry α)) :
    (a.run offers).1 = (Roster.run d offers).1 ∧
      Represents d (a.run offers).2 (Roster.run d offers).2 := by
  have hStep : ∀ (a : Archive α) roster e, Represents d a roster →
      (a.offered e).1 = (Roster.offered d roster e).1 ∧
        Represents d (a.offered e).2 (Roster.offered d roster e).2 :=
    fun _ _ e h => represents_offered h e
  exact replies_simulation hStep h offers

/-- **The archive is a roster.** Offered any sequence of pairs, well-formed or not, an archive
gives the answers of the roster and holds its entries, each once. -/
theorem run_eq_roster [OrderedScalar α] {capacity : Nat} (hDimensions : 1 ≤ d ∧ d ≤ 64)
    (hCapacity : 1 ≤ capacity) :
    ∃ empty : Archive α, Archive.empty d capacity = .ok empty ∧ ∀ offers : List (Entry α),
      let a := (empty.run offers).2
      let roster := (Roster.run d offers).2
      (empty.run offers).1 = (Roster.run d offers).1 ∧
        (∀ solution, a.contains solution = roster.any fun x => x.solution = solution) ∧
        a.size = roster.length ∧
        a.entries.Perm roster ∧
        (roster.map (·.solution)).Nodup := by
  obtain ⟨empty, hEmpty, hStart⟩ := exists_empty (α := α) hDimensions hCapacity
  refine ⟨empty, hEmpty, fun offers => ?_⟩
  obtain ⟨hAnswers, hAfter⟩ := represents_run hStart offers
  exact ⟨hAnswers, hAfter.contains_eq, hAfter.size_eq, hAfter.entries_perm, hAfter.distinct⟩

theorem run_eq_roster_two_objectives : (1 ≤ 2 ∧ 2 ≤ 64) ∧ 1 ≤ 1 ∧
    ∃ empty : Archive Float, Archive.empty 2 1 = .ok empty ∧ ∀ offers : List (Entry Float),
      let a := (empty.run offers).2
      let roster := (Roster.run 2 offers).2
      (empty.run offers).1 = (Roster.run 2 offers).1 ∧
        (∀ solution, a.contains solution = roster.any fun x => x.solution = solution) ∧
        a.size = roster.length ∧
        a.entries.Perm roster ∧
        (roster.map (·.solution)).Nodup :=
  ⟨by decide, by decide, run_eq_roster (by decide) (by decide)⟩

end Simulation

end SwapSearch.Pareto
