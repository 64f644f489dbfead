import SwapSearch.Proofs.Pareto.Arena.Layout
import SwapSearch.Proofs.Pareto.Arena.Simulation

/-!
# SwapSearch — the representation invariant of the archive

What the archive relies on between two offers, said of the nodes in its arena and of the
ids that they hold: the nodes are one tree below node 0; regions ascend along siblings,
and every vector has the region of the child it lies in relative to the pivot of the
branch, even if that pivot or its own is no longer live; buckets are not overfull; and
what is live in the nodes is what is retained, with no solution twice and no vector that
equals or dominates another.

An arena with these properties models an archive over a forest, and such an archive has
them (`invariant_iff`). So they are kept by what keeps the forest, and an operation on
the arena is one on the forest: it ends, and it leaves in the nodes what the operation
on the forest leaves in the trees.

## Results

* `invariant_iff`     — the invariant, against archives over a forest.
* `invariant_offered` — any offer has an answer and preserves the invariant.
* `Invariant.reliable` — what follows: walks and traversals end, a detachment finds its
                        entry, and a split drops nothing.
* `invariant_run`     — so it is after any history.
-/

namespace SwapSearch.Pareto

open Arena Relation

variable {α : Type}

-- ---------------------------------------------------------------------------
-- The invariant
-- ---------------------------------------------------------------------------

section Statement

variable [Scalar α]

/-- The vectors are different and neither dominates the other. -/
def Apart (x y : Entry α) : Prop :=
  Scalar.sameVector x.vector y.vector = false ∧
    dominates x.vector y.vector = false ∧ dominates y.vector x.vector = false

namespace LinkedArchive

/-- What holds of an archive for `d` objectives between two offers. -/
structure Invariant (d capacity : Nat) (x : LinkedArchive α) : Prop where
  dimensions : x.dimensions = d
  capacity_eq : x.capacity = capacity
  /-- The nodes form a tree below node 0. -/
  tree : x.arena.IsTree
  /-- Node 0 has no sibling. -/
  root : ∃ content, x.arena[0]? = some ⟨0, none, content⟩
  ascending : x.arena.Ascending
  partitioned : x.arena.Partitioned
  /-- No bucket is overfull. -/
  fits : ∀ node ∈ x.arena.toList, ∀ slots ∈ node.content.buckets, slots.length ≤ capacity
  points : ∀ node ∈ x.arena.toList, ∀ v ∈ node.content.vectors, IsPoint d v
  distinct : DistinctSolutions x.entries
  apart : x.entries.Pairwise Apart
  /-- The retained pairs are those of the live pivots and the slots. -/
  retained : x.entries.Perm x.retained

/-- The archive that a solution is offered to: the entry it may have already is given up. -/
def vacate (x : LinkedArchive α) (solution : Permutation) : Option (LinkedArchive α) :=
  match x.find? solution with
  | some previous => x.detach previous
  | none => some x

/-- What an archive for `d` objectives can be relied on for between two offers. -/
structure Reliable (d : Nat) (x : LinkedArchive α) : Prop where
  /-- Each node is at the end of exactly one walk along pointers. -/
  reached : ∀ n < x.arena.size, ∃! walk : List Nat,
    (0 :: walk).IsChain x.arena.Linked ∧ (0 :: walk).getLast? = some n
  /-- A walk stops before it has followed as many pointers as there are nodes. -/
  walks : ∀ walk : List Nat, (0 :: walk).IsChain x.arena.Linked → walk.length < x.arena.size
  /-- Whatever they are after, all passes end. -/
  ends : ∀ steps, x.arena.patience ≤ steps →
    ∀ (vector : List α) (e : Eviction α) (solution : Permutation) (slot : Slot α),
      (x.arena.cover vector steps 0).isSome ∧ (x.arena.evict vector true steps e 0).isSome ∧
        (x.arena.detach solution vector steps 0).isSome ∧ (x.place steps slot 0).isSome
  /-- A detachment removes the entry it is asked to remove, and nothing else. -/
  detaches : ∀ e ∈ x.retained, ∃ x', x.detach e = some x' ∧ (e :: x'.entries).Perm x.entries
  /-- Where a newcomer is placed because it is not covered and has not taken the place of another,
  nothing is discarded, split or not: the slot comes to what the nodes hold, and none of the
  retained is struck off. -/
  keeps : ∀ entry : Entry α, IsPoint d entry.vector →
    ∃ vacated, x.vacate entry.solution = some vacated ∧
      ∀ (arena : Arena α) (room : LinkedArchive α) (slot : Slot α),
        vacated.arena.cover entry.vector vacated.arena.patience 0 = some (false, arena) →
        { vacated with arena }.makeRoom entry = some (some slot, room) →
        ∃ placed, room.place room.arena.patience slot 0 = some placed ∧
          placed.retained = room.retained ∧
          placed.entries.Perm (slot.toEntry :: room.entries)

end LinkedArchive

end Statement

-- ---------------------------------------------------------------------------
-- Against the forest
-- ---------------------------------------------------------------------------

section Forest

variable {x : LinkedArchive α} {a : Archive α}

theorem Models.serials_perm (h : Models x a) (hRooted : a.forest.Rooted a.capacity a.serial) :
    a.forest.serials.Perm (List.range x.arena.size) :=
  h.size ▸ hRooted.nodes

/-- The live entries of the nodes are what is stored in the forest. -/
theorem Models.entries_perm (h : Models x a) (hRooted : a.forest.Rooted a.capacity a.serial) :
    x.entries.Perm a.forest.stored := by
  rw [← a.forest.entries_listing]
  exact (h.spells.listing_perm (h.serials_perm hRooted)).flatMap_right _

end Forest

variable [Scalar α] [OrderedScalar α] {d capacity : Nat} {x : LinkedArchive α} {a : Archive α}

theorem apart_iff_incomparable {x y : Entry α} (hx : IsPoint d x.vector) (hy : IsPoint d y.vector) :
    Apart x y ↔ Incomparable x.vector y.vector := by
  unfold Apart Incomparable
  rw [← Bool.not_eq_true, ← Bool.not_eq_true (dominates _ _), ← Bool.not_eq_true (dominates _ _),
    hx.sameVector_iff hy, hx.dominates_iff hy, hy.dominates_iff hx]
  cases weaklyDominates x.vector y.vector <;> cases weaklyDominates y.vector x.vector <;> decide

theorem pairwise_apart_iff {entries : List (Entry α)}
    (hPoints : ∀ e ∈ entries, IsPoint d e.vector) :
    entries.Pairwise Apart ↔ Antichain entries := by
  constructor
  · exact fun h => h.imp_of_mem fun hx hy =>
      (apart_iff_incomparable (hPoints _ hx) (hPoints _ hy)).mp
  · exact fun h => List.Pairwise.imp_of_mem
      (fun hx hy => (apart_iff_incomparable (hPoints _ hx) (hPoints _ hy)).mpr) h

/-- An archive that models what is kept satisfies the invariant. -/
theorem Models.invariant (h : Models x a) (hKept : a.Kept d capacity) : x.Invariant d capacity := by
  obtain ⟨rfl, hRooted, hRepresents⟩ := hKept
  have hSerials := h.serials_perm hRooted
  -- the nodes of the arena are those of the forest, in another order
  have hListing := h.spells.listing_perm hSerials
  have hEntries := h.entries_perm hRooted
  have hPoints : ∀ e ∈ x.entries, IsPoint d e.vector := fun e he =>
    hRepresents.points _ (Forest.vector_mem_of_stored (hEntries.mem_iff.mp he))
  have hAntichain : Antichain x.entries :=
    hRepresents.antichain.perm (hEntries.trans hRepresents.stored).symm
  exact {
    dimensions := h.dimensions.trans hRepresents.dimensions
    capacity_eq := h.capacity
    tree := isTree_iff.mpr ⟨a.forest, h.spells, hSerials⟩
    root := exists_root h.spells hRooted.region
    ascending := fun hNode hSibling hNext => h.spells.ascending hRepresents.arranged
      (hSerials.mem_iff.mpr (List.mem_range.mpr (lt_of_getElem? hNode))) hNode hSibling hNext
    partitioned := h.spells.partitioned hRepresents.arranged hSerials
    fits := fun node hNode slots hSlots => hRooted.fits slots (by
      rw [← a.forest.buckets_listing]
      exact List.mem_flatMap.mpr ⟨node, hListing.mem_iff.mp hNode, hSlots⟩)
    points := fun node hNode v hv => hRepresents.points v (by
      rw [← a.forest.vectors_listing]
      exact List.mem_flatMap.mpr ⟨node, hListing.mem_iff.mp hNode, hv⟩)
    distinct := hRepresents.storedDistinct.perm hEntries.symm
    apart := (pairwise_apart_iff hPoints).mpr hAntichain
    retained := (hEntries.trans hRepresents.stored).trans (h.retained ▸ List.Perm.refl _) }

/-- An arena that satisfies the invariant spells a forest of which what is kept holds. -/
theorem LinkedArchive.Invariant.exists_models (h : x.Invariant d capacity) :
    ∃ a : Archive α, Models x a ∧ a.Kept d capacity := by
  -- the arena is a tree, so it spells a forest that is all of it
  obtain ⟨f, hSpells, hSerials⟩ := isTree_iff.mp h.tree
  obtain ⟨content, hRoot⟩ := h.root
  have hListing := hSpells.listing_perm hSerials
  have hEntries : x.entries.Perm f.stored := by
    rw [← f.entries_listing]
    exact hListing.flatMap_right _
  have hPoints : ∀ v ∈ f.vectors, IsPoint d v := by
    intro v hv
    rw [← f.vectors_listing] at hv
    obtain ⟨node, hNode, hv⟩ := List.mem_flatMap.mp hv
    exact h.points node (hListing.mem_iff.mpr hNode) v hv
  have hEntryPoints : ∀ e ∈ x.entries, IsPoint d e.vector := fun e he =>
    hPoints _ (Forest.vector_mem_of_stored (hEntries.mem_iff.mp he))
  have hArranged : f.Arranged fun _ => 0 := by
    refine hSpells.arranged h.ascending h.partitioned fun hFirst hSiblings hTop _ _ _ _ => ?_
    -- the root is alone at the top
    obtain rfl := Option.some.inj hFirst
    rcases hSiblings.cases_head with rfl | ⟨next, ⟨_, hSame, hNext⟩, -⟩
    · obtain rfl := Option.some.inj (hRoot.symm.trans hTop)
      rfl
    · obtain rfl := Option.some.inj (hRoot.symm.trans hSame)
      exact nomatch hNext
  -- what the invariant says of the nodes is said of the forest by its listing
  refine ⟨⟨d, capacity, f, x.arena.size, x.retained, x.ideal⟩,
    ⟨h.dimensions, h.capacity_eq, rfl, rfl, rfl, hSpells⟩,
    rfl, ⟨hSpells.regions_root hRoot, hSpells.cursor_eq.symm, hSerials, fun slots hSlots => ?_⟩,
    rfl, rfl, hArranged, hPoints, hEntries.symm.trans h.retained, h.distinct.perm h.retained,
    ((pairwise_apart_iff hEntryPoints).mp h.apart).perm h.retained⟩
  rw [← f.buckets_listing] at hSlots
  obtain ⟨node, hNode, hSlots⟩ := List.mem_flatMap.mp hSlots
  exact h.fits node (hListing.mem_iff.mpr hNode) slots hSlots

/-- The invariant is what an archive over a forest keeps, said of the arena. -/
theorem invariant_iff :
    x.Invariant d capacity ↔ ∃ a : Archive α, Models x a ∧ a.Kept d capacity :=
  ⟨fun h => h.exists_models, fun ⟨_, h, hKept⟩ => h.invariant hKept⟩

-- ---------------------------------------------------------------------------
-- Preservation
-- ---------------------------------------------------------------------------

theorem exists_empty_invariant (hDimensions : 1 ≤ d ∧ d ≤ 64) (hCapacity : 1 ≤ capacity) :
    ∃ empty : LinkedArchive α, LinkedArchive.empty d capacity = .ok empty ∧
      empty.Invariant d capacity := by
  obtain ⟨a, hArchive, hKept⟩ := kept_empty (α := α) hDimensions hCapacity
  obtain ⟨empty, hEmpty, hModels⟩ := exists_empty_models hArchive
  exact ⟨empty, hEmpty, invariant_iff.mpr ⟨a, hModels, hKept⟩⟩

/-- Any offer, malformed or not, has an answer and preserves the invariant. -/
theorem invariant_offered (hCapacity : 1 ≤ capacity) (h : x.Invariant d capacity)
    (entry : Entry α) :
    ∃ answer x', x.offered entry = some (answer, x') ∧ x'.Invariant d capacity := by
  obtain ⟨a, hModels, hKept⟩ := h.exists_models
  obtain ⟨rfl, hRooted, -⟩ := id hKept
  obtain ⟨x', hRun, hModels'⟩ := hModels.offered hRooted hCapacity entry
  exact ⟨_, x', hRun, hModels'.invariant (kept_offered hCapacity hKept entry)⟩

theorem invariant_replies (hCapacity : 1 ≤ capacity) (h : x.Invariant d capacity)
    (offers : List (Entry α)) :
    ∃ answers x', x.run offers = some (answers, x') ∧ x'.Invariant d capacity := by
  induction offers generalizing x with
  | nil => exact ⟨[], x, rfl, h⟩
  | cons entry rest ih =>
    obtain ⟨answer, x', hOffered, h'⟩ := invariant_offered hCapacity h entry
    obtain ⟨answers, x'', hRun, h''⟩ := ih h'
    refine ⟨answer :: answers, x'', ?_, h''⟩
    simp [LinkedArchive.run, hOffered, hRun]

-- ---------------------------------------------------------------------------
-- What follows
-- ---------------------------------------------------------------------------

omit [OrderedScalar α] in
theorem Models.vacate (h : Models x a) (hRooted : a.forest.Rooted a.capacity a.serial)
    (solution : Permutation) :
    ∃ x', x.vacate solution = some x' ∧ Models x' (a.vacated solution) := by
  unfold LinkedArchive.vacate Archive.vacated
  rw [h.find?_eq]
  cases a.find? solution with
  | none => exact ⟨x, rfl, h⟩
  | some previous => exact h.detach hRooted previous

omit [OrderedScalar α] in
theorem Models.ends (h : Models x a) (hRooted : a.forest.Rooted a.capacity a.serial)
    (hCapacity : 1 ≤ a.capacity) {steps : Nat} (hSteps : x.arena.patience ≤ steps)
    (vector : List α) (e : Eviction α) (solution : Permutation) (slot : Slot α) :
    (x.arena.cover vector steps 0).isSome ∧ (x.arena.evict vector true steps e 0).isSome ∧
      (x.arena.detach solution vector steps 0).isSome ∧ (x.place steps slot 0).isSome := by
  have hSearch := h.cover hSteps hRooted vector
  refine ⟨?_, ?_, ?_, ?_⟩
  · generalize a.forest.cover 0 vector = found at hSearch
    generalize x.arena.cover vector steps 0 = result at hSearch ⊢
    cases hSearch <;> rfl
  · obtain ⟨_, hRun, -⟩ := h.evict hSteps hRooted vector e
    rw [hRun]
    rfl
  · obtain ⟨_, hRun, -⟩ := h.detachNode hSteps hRooted solution vector
    rw [hRun]
    rfl
  · obtain ⟨_, hRun, -⟩ := h.place hSteps hRooted hCapacity slot
    rw [hRun]
    rfl

omit [OrderedScalar α] in
theorem Models.detaches (h : Models x a) (hKept : a.Kept d capacity) {e : Entry α}
    (he : e ∈ x.retained) : ∃ x', x.detach e = some x' ∧ (e :: x'.entries).Perm x.entries := by
  obtain ⟨rfl, hRooted, hRepresents⟩ := hKept
  obtain ⟨x', hRun, hModels⟩ := h.detach hRooted e
  have hThinned := Forest.thinned_detach e.solution e.vector 0 a.forest
  refine ⟨x', hRun, ?_⟩
  calc
    List.Perm (e :: x'.entries) (e :: (a.detach e).forest.stored) :=
      (hModels.entries_perm (hRooted.thinned hThinned)).cons e
    List.Perm _ a.forest.stored := hRepresents.detach_perm (h.retained ▸ he)
    List.Perm _ x.entries := (h.entries_perm hRooted).symm

/-- A slot that is placed comes to what the nodes hold, and a split on the way drops nothing. -/
theorem Models.keeps (h : Models x a) (hKept : a.Kept d capacity) (hCapacity : 1 ≤ capacity)
    {entry : Entry α} (hPoint : IsPoint d entry.vector) {arena : Arena α}
    {room : LinkedArchive α} {slot : Slot α}
    (hUncovered : x.arena.cover entry.vector x.arena.patience 0 = some (false, arena))
    (hRoom : { x with arena }.makeRoom entry = some (some slot, room)) :
    ∃ placed, room.place room.arena.patience slot 0 = some placed ∧
      placed.retained = room.retained ∧ placed.entries.Perm (slot.toEntry :: room.entries) := by
  obtain ⟨rfl, hRooted, hRepresents⟩ := hKept
  -- the search has found no cover, and so has that in the forest
  have hSearch := h.cover (Nat.le_refl _) hRooted entry.vector
  rw [hUncovered] at hSearch
  generalize hCover : a.forest.cover 0 entry.vector = found at hSearch
  cases hSearch with
  | uncovered =>
  -- what is pending after the eviction is the newcomer
  obtain ⟨⟨forest, eviction⟩, hEvict⟩ :
      ∃ result, a.forest.evict 0 entry.vector true ⟨some ⟨entry, 0⟩, []⟩ = result := ⟨_, rfl⟩
  obtain ⟨room', hRoom', hModels⟩ := h.makeRoom hRooted hEvict
  obtain ⟨hPending, rfl⟩ := Prod.mk.inj (Option.some.inj (hRoom.symm.trans hRoom'))
  obtain ⟨-, -, -, -, hNewcomer | hNone⟩ := hRepresents.evict_represented hPoint hEvict
  · obtain rfl := Option.some.inj (hPending.trans hNewcomer)
    obtain ⟨-, hPlace⟩ := hRepresents.placed_waiting hPoint
      (hRepresents.uncovered hPoint hCover) hEvict hNewcomer
    have hThinned := Forest.thinned_evict 0 entry.vector true a.forest ⟨some ⟨entry, 0⟩, []⟩
    rw [hEvict] at hThinned
    have hRootedRoom : forest.Rooted a.capacity a.serial := hRooted.thinned hThinned
    obtain ⟨placed, hRun, hModels'⟩ := hModels.placed hRootedRoom hCapacity ⟨entry, 0⟩
      (p := forest.place a.capacity ⟨entry, 0⟩ 0 a.serial) rfl
    refine ⟨placed, hRun, ?_, ?_⟩
    -- nothing was dropped on the way, so nothing is taken off the list
    · rw [hModels'.retained, hPlace.dropped, hModels.retained]
      simp [Archive.forget]
    · calc
        List.Perm placed.entries (forest.place a.capacity ⟨entry, 0⟩ 0 a.serial).forest.stored :=
          hModels'.entries_perm (hRootedRoom.place hCapacity _)
        List.Perm _ (entry :: forest.stored) := hPlace.stored
        List.Perm _ (entry :: room.entries) := ((hModels.entries_perm hRootedRoom).cons entry).symm
  · exact absurd (hPending.trans hNone) (Option.some_ne_none _)

/-- **What the invariant is good for.** -/
theorem LinkedArchive.Invariant.reliable (hCapacity : 1 ≤ capacity) (h : x.Invariant d capacity) :
    x.Reliable d := by
  obtain ⟨a, hModels, hKept⟩ := h.exists_models
  obtain ⟨rfl, hRooted, -⟩ := id hKept
  refine ⟨fun n hn => h.tree.existsUnique_walk hn, fun walk hWalk => h.tree.length_lt_of_walk hWalk,
    fun steps hSteps => hModels.ends hRooted hCapacity hSteps,
    fun e he => hModels.detaches hKept he, fun entry hPoint => ?_⟩
  obtain ⟨vacated, hVacated, hModels'⟩ := hModels.vacate hRooted entry.solution
  have hKept' := hKept.vacated entry.solution
  exact ⟨vacated, hVacated, fun _ _ _ hUncovered hRoom =>
    hModels'.keeps hKept' hCapacity hPoint hUncovered hRoom⟩

-- ---------------------------------------------------------------------------
-- Histories
-- ---------------------------------------------------------------------------

/-- **The representation invariant.** A fresh archive satisfies it, any offer to an archive that
does has an answer and preserves it, and so it holds after any history, for any capacity. What
follows from it can be relied on in every archive that satisfies it. -/
theorem invariant_run (hDimensions : 1 ≤ d ∧ d ≤ 64) (hCapacity : 1 ≤ capacity) :
    ∃ empty : LinkedArchive α, LinkedArchive.empty d capacity = .ok empty ∧
      empty.Invariant d capacity ∧
      (∀ x : LinkedArchive α, x.Invariant d capacity →
        x.Reliable d ∧ ∀ entry : Entry α, ∃ answer x',
          x.offered entry = some (answer, x') ∧ x'.Invariant d capacity) ∧
      ∀ offers : List (Entry α), ∃ answers x,
        empty.run offers = some (answers, x) ∧ x.Invariant d capacity ∧ x.Reliable d := by
  obtain ⟨empty, hEmpty, hStart⟩ := exists_empty_invariant (α := α) hDimensions hCapacity
  refine ⟨empty, hEmpty, hStart, fun x h => ?_, fun offers => ?_⟩
  · exact ⟨h.reliable hCapacity, fun entry => invariant_offered hCapacity h entry⟩
  · obtain ⟨answers, x, hRun, h⟩ := invariant_replies hCapacity hStart offers
    exact ⟨answers, x, hRun, h, h.reliable hCapacity⟩

theorem invariant_run_two_objectives : (1 ≤ 2 ∧ 2 ≤ 64) ∧ 1 ≤ 1 ∧
    ∃ empty : LinkedArchive Float, LinkedArchive.empty 2 1 = .ok empty ∧
      empty.Invariant 2 1 ∧
      (∀ x : LinkedArchive Float, x.Invariant 2 1 →
        x.Reliable 2 ∧ ∀ entry : Entry Float, ∃ answer x',
          x.offered entry = some (answer, x') ∧ x'.Invariant 2 1) ∧
      ∀ offers : List (Entry Float), ∃ answers x,
        empty.run offers = some (answers, x) ∧ x.Invariant 2 1 ∧ x.Reliable 2 :=
  ⟨by decide, by decide, invariant_run (by decide) (by decide)⟩

end SwapSearch.Pareto
