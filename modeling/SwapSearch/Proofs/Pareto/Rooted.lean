import SwapSearch.Proofs.Pareto.Nodes
import SwapSearch.Proofs.Pareto.Roster

/-!
# SwapSearch — what an archive keeps

What holds of an archive over a forest between two offers. Its nodes are numbered as they
were created, below a root that never moves, and no bucket is overfull (`Forest.Rooted`).
Its entries are those of a roster, arranged by region (`Represents`, shown in the comparison
with the roster). The two do not depend on each other and are put together in
`Archive.Kept`.

## Results

* `rooted_offered` — any offer keeps the nodes below the root.
* `kept_offered`   — any offer keeps both.
-/

namespace SwapSearch.Pareto

variable {α : Type}

-- ---------------------------------------------------------------------------
-- Nodes
-- ---------------------------------------------------------------------------

/-- One tree at the top, node 0 with region 0. Serials below `serial` are taken, each once, and no
bucket is overfull. -/
structure Forest.Rooted (capacity serial : Nat) (f : Forest α) : Prop where
  region : f.regions = [0]
  root : f.head? = some 0
  nodes : f.serials.Perm (List.range serial)
  fits : f.Fits capacity

namespace Forest.Rooted

variable {capacity serial : Nat} {f f' : Forest α}

theorem empty (capacity : Nat) : Rooted capacity 1 (.leaf 0 0 [] .nil : Forest α) where
  region := rfl
  root := rfl
  nodes := List.Perm.refl _
  fits := fits_leaf.mpr ⟨Nat.zero_le _, fun _ h => nomatch h⟩

theorem thinned (h : Rooted capacity serial f) (hThinned : Thinned f f') :
    Rooted capacity serial f' where
  region := hThinned.regions_eq.trans h.region
  root := hThinned.head?_eq.trans h.root
  nodes := by
    rw [hThinned.serials_eq]
    exact h.nodes
  fits := hThinned.fits h.fits

theorem place [Scalar α] (h : Rooted capacity serial f) (hCapacity : 1 ≤ capacity)
    (slot : Slot α) :
    Rooted capacity (f.place capacity slot 0 serial).serial
      (f.place capacity slot 0 serial).forest := by
  obtain ⟨hRegion, hRoot⟩ := root_place capacity slot serial h.region
  obtain ⟨⟨created, hSerial, hSerials⟩, hFits⟩ := grown_place hCapacity slot 0 serial h.fits
  refine ⟨hRegion, hRoot.trans h.root, ?_, hFits⟩
  have hNumbered := (hSerials.trans (h.nodes.append_left _)).trans List.perm_append_comm
  have hRange := List.range'_append_1 (s := 0) (m := serial) (n := created)
  rw [Nat.zero_add] at hRange
  rw [List.range_eq_range', hRange] at hNumbered
  rwa [hSerial, List.range_eq_range']

end Forest.Rooted

variable [Scalar α]

section Nodes

variable {a : Archive α} {capacity : Nat}

/-- An offer changes the tree by crediting a slot, or by an eviction and perhaps a placement. -/
theorem rooted_offer (h : a.forest.Rooted a.capacity a.serial) (hCapacity : 1 ≤ a.capacity)
    (entry : Entry α) :
    (a.offer entry).2.capacity = a.capacity ∧
      (a.offer entry).2.forest.Rooted a.capacity (a.offer entry).2.serial := by
  cases hCover : a.forest.cover 0 entry.vector with
  | some forest =>
    simp only [Archive.offer, hCover]
    exact ⟨trivial, h.thinned (Forest.similar_of_cover hCover).thinned⟩
  | none =>
    obtain ⟨⟨forest, eviction⟩, hEvict⟩ :
        ∃ result, a.forest.evict 0 entry.vector true ⟨some ⟨entry, 0⟩, []⟩ = result := ⟨_, rfl⟩
    -- an eviction takes slots away and leaves the nodes
    have hForest : forest.Rooted a.capacity a.serial := by
      have hThinned := Forest.thinned_evict 0 entry.vector true a.forest ⟨some ⟨entry, 0⟩, []⟩
      rw [hEvict] at hThinned
      exact h.thinned hThinned
    cases hPending : eviction.pending with
    | none =>
      rw [Archive.offer_moved hCover hEvict hPending]
      exact ⟨rfl, hForest⟩
    | some slot =>
      rw [Archive.offer_placed hCover hEvict hPending]
      exact ⟨rfl, hForest.place hCapacity slot⟩

/-- Any offer, malformed or not, keeps the nodes a tree. -/
theorem rooted_offered (h : a.forest.Rooted a.capacity a.serial) (hCapacity : 1 ≤ a.capacity)
    (entry : Entry α) :
    (a.offered entry).2.capacity = a.capacity ∧
      (a.offered entry).2.forest.Rooted a.capacity (a.offered entry).2.serial := by
  unfold Archive.offered
  cases hValid : a.requireVector entry.vector with
  | error reason =>
    rw [Archive.insert_of_error hValid]
    exact ⟨rfl, h⟩
  | ok =>
    rw [Archive.insert_of_ok hValid]
    cases a.find? entry.solution with
    | none => exact rooted_offer (a := a.raiseIdeal entry.vector) h hCapacity _
    | some previous =>
      dsimp only
      split
      · exact ⟨rfl, h⟩
      · have hDetached := h.thinned
          (Forest.thinned_detach previous.solution previous.vector 0 a.forest)
        exact rooted_offer (a := (a.raiseIdeal entry.vector).detach previous) hDetached
          hCapacity _

end Nodes

-- ---------------------------------------------------------------------------
-- Nodes and entries
-- ---------------------------------------------------------------------------

/-- What holds of an archive over a forest between two offers. -/
structure Archive.Kept (d capacity : Nat) (a : Archive α) : Prop where
  capacity_eq : a.capacity = capacity
  rooted : a.forest.Rooted capacity a.serial
  represents : Represents d a a.retained

theorem kept_empty {d capacity : Nat} (hDimensions : 1 ≤ d ∧ d ≤ 64) (hCapacity : 1 ≤ capacity) :
    ∃ empty : Archive α, Archive.empty d capacity = .ok empty ∧ empty.Kept d capacity := by
  obtain ⟨empty, hEmpty, hRepresents⟩ := exists_empty (α := α) hDimensions hCapacity
  refine ⟨empty, hEmpty, ?_⟩
  unfold Archive.empty at hEmpty
  rw [if_neg (by omega), if_neg (by omega)] at hEmpty
  obtain rfl := Except.ok.inj hEmpty
  exact ⟨rfl, .empty capacity, hRepresents⟩

/-- Any offer, malformed or not, preserves what is kept. -/
theorem kept_offered [OrderedScalar α] {d capacity : Nat} {a : Archive α}
    (hCapacity : 1 ≤ capacity) (h : a.Kept d capacity) (entry : Entry α) :
    (a.offered entry).2.Kept d capacity := by
  obtain ⟨rfl, hRooted, hRepresents⟩ := h
  obtain ⟨hSame, hRootedAfter⟩ := rooted_offered hRooted hCapacity entry
  have hAfter := (represents_offered hRepresents entry).2
  have hRetained := hAfter.retained
  exact ⟨hSame, hRootedAfter, hRetained ▸ hAfter⟩

/-- An archive that gives up an entry keeps both. -/
theorem Archive.Kept.vacated {d capacity : Nat} {a : Archive α} (h : a.Kept d capacity)
    (solution : Permutation) : (a.vacated solution).Kept d capacity := by
  obtain ⟨rfl, hRooted, hRepresents⟩ := h
  obtain ⟨roster, hVacated⟩ := hRepresents.vacated solution
  have hRetained := hVacated.retained
  have hCapacity : (a.vacated solution).capacity = a.capacity := by
    unfold Archive.vacated
    split <;> rfl
  refine ⟨hCapacity, ?_, hRetained ▸ hVacated⟩
  unfold Archive.vacated
  split
  · next previous _ =>
    exact hRooted.thinned (Forest.thinned_detach previous.solution previous.vector 0 a.forest)
  · exact hRooted

end SwapSearch.Pareto
