import SwapSearch.Proofs.Pareto.Arena.Passes
import SwapSearch.Proofs.Pareto.Arena.Placing
import SwapSearch.Proofs.Pareto.Rooted

/-!
# SwapSearch — the archive in an arena is the archive

An archive over an arena *models* an archive over a forest if its arena spells the
forest. Offered the same pairs, it gives the same answers and goes on modelling the
other one. In particular it always gives an answer: no walk along its pointers runs
out of steps.

The passes are shown for any part of a forest in the modules before. Here they start
at node 0, and what is left is to see that a pass over the only tree at the top is a
pass from its root.

## Results

* `Models.offer`   — the passes of an offer together.
* `Models.offered` — one offer, malformed or not.
* `models_run`, `run_eq_archive` — whole histories.
-/

namespace SwapSearch.Pareto

open Arena

variable {α : Type}

-- ---------------------------------------------------------------------------
-- The root
-- ---------------------------------------------------------------------------

/-- The node at the root stands alone. -/
theorem Arena.exists_root {arena : Arena α} {f : Forest α} (h : Spells arena (some 0) f)
    (hRegion : f.regions = [0]) : ∃ content, arena[0]? = some ⟨0, none, content⟩ := by
  cases h with
  | leaf hNode hRest =>
    obtain ⟨rfl, hNone⟩ := List.cons.inj hRegion
    cases hRest with
    | nil => exact ⟨_, hNode⟩
    | leaf => simp [Forest.regions] at hNone
    | branch => simp [Forest.regions] at hNone
  | branch hNode _ hRest =>
    obtain ⟨rfl, hNone⟩ := List.cons.inj hRegion
    cases hRest with
    | nil => exact ⟨_, hNode⟩
    | leaf => simp [Forest.regions] at hNone
    | branch => simp [Forest.regions] at hNone

theorem Forest.spot_root {f : Forest α} {capacity serial : Nat} (h : f.Rooted capacity serial) :
    f.spot 0 none = .taken 0 := by
  have hRegion := h.region
  have hRoot := h.root
  cases f with
  | nil => simp [Forest.regions] at hRegion
  | leaf m n slots rest =>
    obtain ⟨rfl, -⟩ := List.cons.inj hRegion
    simpa [Forest.spot, Forest.head?, Forest.serials] using hRoot
  | branch m n pivot live children rest =>
    obtain ⟨rfl, -⟩ := List.cons.inj hRegion
    simpa [Forest.spot, Forest.head?, Forest.serials] using hRoot

section Root

variable [Scalar α] {arena : Arena α} {content : Content α}

theorem Arena.cover_root (hRoot : arena[0]? = some ⟨0, none, content⟩) (point : List α)
    (steps : Nat) :
    cover point steps arena 0 = coverAlong point 0 (steps + 1) arena (some 0) := by
  simp only [coverAlong, hRoot, isSubregion_self, Option.bind_eq_bind, Option.bind_some, reduceIte,
    coverAlong_none, Option.pure_def]
  cases cover point steps arena 0 with
  | none => rfl
  | some result =>
    obtain ⟨covered, arena'⟩ := result
    cases covered <;> rfl

theorem Arena.evict_root (hRoot : arena[0]? = some ⟨0, none, content⟩) (point : List α)
    (steps : Nat) (e : Eviction α) :
    evict point true steps e arena 0 = evictAlong point 0 true (steps + 1) e arena (some 0) := by
  simp only [evictAlong, hRoot, isSubregion_self, Option.bind_eq_bind, Option.bind_some, reduceIte,
    evictAlong_none, Bool.true_and, beq_self_eq_true]
  cases evict point true steps e arena 0 <;> rfl

theorem Arena.detach_root (hRoot : arena[0]? = some ⟨0, none, content⟩) {search : Nat}
    (hSearch : 0 < search) (solution : Permutation) (vector : List α) (steps : Nat) :
    detach solution vector steps arena 0 =
      detachAlong solution vector 0 search steps arena (some 0) := by
  obtain ⟨search, rfl⟩ : ∃ k, search = k + 1 := ⟨search - 1, by omega⟩
  simp [detachAlong, find, hRoot]

end Root

-- ---------------------------------------------------------------------------
-- Models
-- ---------------------------------------------------------------------------

/-- The archive over an arena holds what the archive over a forest holds, node by node. -/
structure Models (x : LinkedArchive α) (a : Archive α) : Prop where
  dimensions : x.dimensions = a.dimensions
  capacity : x.capacity = a.capacity
  retained : x.retained = a.retained
  ideal : x.ideal = a.ideal
  size : x.arena.size = a.serial
  spells : Spells x.arena (some 0) a.forest

namespace Models

variable {x : LinkedArchive α} {a : Archive α}

theorem forget (h : Models x a) (gone : List Permutation) :
    Models (x.forget gone) (a.forget gone) :=
  ⟨h.dimensions, h.capacity, congrArg (List.filter _) h.retained, h.ideal, h.size, h.spells⟩

theorem retain (h : Models x a) (entry : Entry α) :
    Models { x with retained := entry :: x.retained } { a with retained := entry :: a.retained } :=
  ⟨h.dimensions, h.capacity, congrArg (entry :: ·) h.retained, h.ideal, h.size, h.spells⟩

/-- A pass that creates no node. -/
theorem rewrite (h : Models x a) {arena' : Arena α} {forest : Forest α}
    (hSize : arena'.size = x.arena.size) (hSpells : Spells arena' (some 0) forest) :
    Models { x with arena := arena' } { a with forest } :=
  ⟨h.dimensions, h.capacity, h.retained, h.ideal, hSize.trans h.size, hSpells⟩

theorem find?_eq (h : Models x a) (solution : Permutation) :
    x.find? solution = a.find? solution := by
  rw [LinkedArchive.find?, Archive.find?, h.retained]

theorem length_eq (h : Models x a) (hRooted : a.forest.Rooted a.capacity a.serial) :
    a.forest.serials.length = x.arena.size := by
  rw [hRooted.nodes.length_eq, List.length_range, h.size]

theorem nodup (hRooted : a.forest.Rooted a.capacity a.serial) : a.forest.serials.Nodup :=
  hRooted.nodes.nodup_iff.mpr List.nodup_range

variable [Scalar α]

theorem raiseIdeal (h : Models x a) (vector : List α) :
    Models (x.raiseIdeal vector) (a.raiseIdeal vector) :=
  ⟨h.dimensions, h.capacity, h.retained, congrArg (List.zipWith _ · vector) h.ideal, h.size,
    h.spells⟩

-- ---------------------------------------------------------------------------
-- Passes
-- ---------------------------------------------------------------------------

section Passes

variable {steps : Nat} (hSteps : x.arena.patience ≤ steps)

include hSteps

theorem cover (h : Models x a) (hRooted : a.forest.Rooted a.capacity a.serial)
    (point : List α) :
    Searched x.arena (some 0) a.forest (a.forest.cover 0 point) (x.arena.cover point steps 0) := by
  obtain ⟨content, hRoot⟩ := exists_root h.spells hRooted.region
  have hLength := h.length_eq hRooted
  unfold patience at hSteps
  rw [cover_root hRoot]
  exact coverAlong_spelled point 0 h.spells (nodup hRooted) (by omega)

theorem evict (h : Models x a) (hRooted : a.forest.Rooted a.capacity a.serial)
    (point : List α) (e : Eviction α) :
    Evicts x.arena (some 0) a.forest (a.forest.evict 0 point true e)
      (x.arena.evict point true steps e 0) := by
  obtain ⟨content, hRoot⟩ := exists_root h.spells hRooted.region
  have hLength := h.length_eq hRooted
  unfold patience at hSteps
  rw [evict_root hRoot]
  exact evictAlong_spelled point 0 true e h.spells (nodup hRooted) (by omega)

theorem detachNode (h : Models x a) (hRooted : a.forest.Rooted a.capacity a.serial)
    (solution : Permutation) (vector : List α) :
    ∃ arena', x.arena.detach solution vector steps 0 = some arena' ∧
      arena'.size = x.arena.size ∧
      Rewrites a.forest x.arena arena' (some 0) (a.forest.detach solution vector 0) := by
  obtain ⟨content, hRoot⟩ := exists_root h.spells hRooted.region
  have hLength := h.length_eq hRooted
  have hPatience : a.forest.serials.length ≤ x.arena.patience := by
    unfold patience
    omega
  have hEnough : a.forest.serials.length ≤ steps := Nat.le_trans hPatience hSteps
  have hSearch : a.forest.serials.length ≤ x.arena.size := Nat.le_of_eq hLength
  rw [detach_root hRoot (Array.getElem?_eq_some_iff.mp hRoot).1]
  exact detachAlong_spelled solution vector 0 h.spells (nodup hRooted) hSearch hEnough hPatience

theorem place (h : Models x a) (hRooted : a.forest.Rooted a.capacity a.serial)
    (hCapacity : 1 ≤ a.capacity) (slot : Slot α) :
    LinkedArchive.Places x (some 0) a.forest (a.forest.place a.capacity slot 0 a.serial)
      (x.place steps slot 0) := by
  have hLength := h.length_eq hRooted
  have hPatience : a.forest.serials.length ≤ x.arena.patience := by
    unfold patience
    omega
  have hEnough : a.forest.serials.length + 1 ≤ steps := by
    unfold patience at hSteps
    omega
  rw [← h.size, ← h.capacity]
  exact LinkedArchive.place_spelled slot h.spells (nodup hRooted) (h.capacity ▸ hCapacity)
    (h.capacity ▸ hRooted.fits) hEnough hPatience (Forest.spot_root hRooted)

end Passes

-- ---------------------------------------------------------------------------
-- Operations
-- ---------------------------------------------------------------------------

theorem detach (h : Models x a) (hRooted : a.forest.Rooted a.capacity a.serial)
    (previous : Entry α) : ∃ x', x.detach previous = some x' ∧ Models x' (a.detach previous) := by
  obtain ⟨arena', hRun, hSize, hRewrites⟩ :=
    h.detachNode (Nat.le_refl _) hRooted previous.solution previous.vector
  refine ⟨_, ?_, (h.rewrite hSize hRewrites.spells).forget [previous.solution]⟩
  simp [LinkedArchive.detach, hRun]

theorem makeRoom (h : Models x a) (hRooted : a.forest.Rooted a.capacity a.serial) {entry : Entry α}
    {forest : Forest α} {eviction : Eviction α}
    (hEvict : a.forest.evict 0 entry.vector true ⟨some ⟨entry, 0⟩, []⟩ = (forest, eviction)) :
    ∃ x', x.makeRoom entry = some (eviction.pending, x') ∧
      Models x' ({ a with forest }.forget eviction.gone) := by
  obtain ⟨arena', hRun, hSize, hRewrites⟩ :=
    h.evict (Nat.le_refl _) hRooted entry.vector ⟨some ⟨entry, 0⟩, []⟩
  rw [hEvict] at hRun hRewrites
  refine ⟨_, ?_, (h.rewrite hSize hRewrites.spells).forget eviction.gone⟩
  simp [LinkedArchive.makeRoom, hRun]

theorem placed (h : Models x a) (hRooted : a.forest.Rooted a.capacity a.serial)
    (hCapacity : 1 ≤ a.capacity) (slot : Slot α) {p : Placement α}
    (hPlace : a.forest.place a.capacity slot 0 a.serial = p) :
    ∃ x', x.place x.arena.patience slot 0 = some x' ∧
      Models x' ({ a with forest := p.forest, serial := p.serial }.forget p.dropped) := by
  obtain ⟨arena', hRun, hSize, hRewrites⟩ := h.place (Nat.le_refl _) hRooted hCapacity slot
  rw [hPlace] at hRun hSize hRewrites
  exact ⟨_, hRun, h.dimensions, h.capacity, congrArg (List.filter _) h.retained, h.ideal, hSize,
    hRewrites.spells⟩

/-- An offer ends, with the same answer, and the archives go on alike. -/
theorem offer (h : Models x a) (hRooted : a.forest.Rooted a.capacity a.serial)
    (hCapacity : 1 ≤ a.capacity) (entry : Entry α) :
    ∃ x', x.offer entry = some ((a.offer entry).1, x') ∧ Models x' (a.offer entry).2 := by
  have hSearch := h.cover (Nat.le_refl _) hRooted entry.vector
  generalize hCover : a.forest.cover 0 entry.vector = found at hSearch
  generalize hRun : x.arena.cover entry.vector x.arena.patience 0 = result at hSearch
  -- the search in the arena has found what the search in the forest finds
  cases hSearch with
  | @covered forest arena' hSize hRewrites =>
    have hAfter : a.offer entry = (false, { a with forest }) := by simp only [Archive.offer, hCover]
    rw [hAfter]
    refine ⟨_, ?_, h.rewrite hSize hRewrites.spells⟩
    simp [LinkedArchive.offer, hRun]
  | uncovered =>
    obtain ⟨⟨forest, eviction⟩, hEvict⟩ :
        ∃ result, a.forest.evict 0 entry.vector true ⟨some ⟨entry, 0⟩, []⟩ = result := ⟨_, rfl⟩
    obtain ⟨room, hRoom, hModels⟩ := h.makeRoom hRooted hEvict
    -- the newcomer has moved in while evicting, or it still has to be placed
    cases hPending : eviction.pending with
    | none =>
      rw [hPending] at hRoom
      rw [Archive.offer_moved hCover hEvict hPending]
      refine ⟨_, ?_, (hModels.forget [entry.solution]).retain entry⟩
      simp [LinkedArchive.offer, hRun, hRoom]
    | some slot =>
      rw [hPending] at hRoom
      rw [Archive.offer_placed hCover hEvict hPending]
      have hThinned := Forest.thinned_evict 0 entry.vector true a.forest ⟨some ⟨entry, 0⟩, []⟩
      rw [hEvict] at hThinned
      obtain ⟨placed, hPlaced, hModels'⟩ :=
        hModels.placed (hRooted.thinned hThinned) hCapacity slot rfl
      refine ⟨_, ?_, (hModels'.forget [entry.solution]).retain entry⟩
      simp [LinkedArchive.offer, hRun, hRoom, hPlaced]

end Models

-- ---------------------------------------------------------------------------
-- Histories
-- ---------------------------------------------------------------------------

variable [Scalar α] {x : LinkedArchive α} {a : Archive α}

/-- Archives of the same capacity start alike. -/
theorem exists_empty_models {d capacity : Nat} (h : Archive.empty d capacity = .ok a) :
    ∃ x, LinkedArchive.empty d capacity = .ok x ∧ Models x a := by
  unfold Archive.empty at h
  unfold LinkedArchive.empty
  split_ifs at h ⊢
  obtain rfl := Except.ok.inj h
  exact ⟨_, rfl, rfl, rfl, rfl, rfl, rfl, .leaf rfl .nil⟩

/-- An offer to an archive over an arena. -/
def LinkedArchive.offered (x : LinkedArchive α) (entry : Entry α) :
    Option (Except Rejection Bool × LinkedArchive α) :=
  (x.insert entry.solution entry.vector).map (settle x)

/-- A history of offers to an archive over an arena. -/
def LinkedArchive.run : LinkedArchive α → List (Entry α) →
    Option (List (Except Rejection Bool) × LinkedArchive α)
  | x, [] => some ([], x)
  | x, entry :: rest => do
    let (answer, x) ← x.offered entry
    let (answers, x) ← run x rest
    return (answer :: answers, x)

/-- Any offer, malformed or not, ends with the same answer, and the archives go on alike. -/
theorem Models.offered (h : Models x a) (hRooted : a.forest.Rooted a.capacity a.serial)
    (hCapacity : 1 ≤ a.capacity) (entry : Entry α) :
    ∃ x', x.offered entry = some ((a.offered entry).1, x') ∧ Models x' (a.offered entry).2 := by
  unfold Archive.offered LinkedArchive.offered LinkedArchive.insert
  rw [h.dimensions]
  cases hValid : a.requireVector entry.vector with
  | error reason =>
    rw [Archive.insert_of_error hValid]
    unfold Archive.requireVector at hValid
    rw [hValid]
    exact ⟨x, rfl, h⟩
  | ok =>
    rw [Archive.insert_of_ok hValid]
    unfold Archive.requireVector at hValid
    rw [hValid]
    have hRaised := h.raiseIdeal entry.vector
    -- both look up the solution in what is retained
    have hFind : (x.raiseIdeal entry.vector).find? entry.solution = a.find? entry.solution :=
      hRaised.find?_eq entry.solution
    dsimp only
    rw [hFind]
    cases a.find? entry.solution with
    | none =>
      obtain ⟨x', hRun, hModels⟩ := hRaised.offer hRooted hCapacity entry
      refine ⟨x', ?_, hModels⟩
      simp [hRun, settle]
    | some previous =>
      dsimp only
      by_cases hSame : Scalar.sameVector previous.vector entry.vector = true
      · rw [if_pos hSame, if_pos hSame]
        exact ⟨_, rfl, hRaised⟩
      · -- the entry that the solution has already is given up first
        obtain ⟨xDetached, hDetach, hModels⟩ := hRaised.detach hRooted previous
        have hThinned := Forest.thinned_detach previous.solution previous.vector 0 a.forest
        obtain ⟨x', hRun, hModels'⟩ := hModels.offer (hRooted.thinned hThinned) hCapacity entry
        rw [if_neg hSame, if_neg hSame]
        refine ⟨x', ?_, hModels'⟩
        simp [hDetach, hRun, settle]

/-- So is a history of offers. -/
theorem models_run (h : Models x a) (hRooted : a.forest.Rooted a.capacity a.serial)
    (hCapacity : 1 ≤ a.capacity) (offers : List (Entry α)) :
    ∃ x', x.run offers = some ((a.run offers).1, x') ∧ Models x' (a.run offers).2 := by
  induction offers generalizing x a with
  | nil => exact ⟨x, rfl, h⟩
  | cons entry rest ih =>
    obtain ⟨x', hOffered, hModels⟩ := h.offered hRooted hCapacity entry
    obtain ⟨hSame, hRootedAfter⟩ := rooted_offered hRooted hCapacity entry
    obtain ⟨x'', hRun, hModels'⟩ := ih hModels (hSame.symm ▸ hRootedAfter) (hSame.symm ▸ hCapacity)
    refine ⟨x'', ?_, hModels'⟩
    simp only [LinkedArchive.run, hOffered, hRun, Option.bind_eq_bind, Option.bind_some]
    rfl

/-- **The archive in an arena is the archive.** Offered any sequence of pairs, well-formed or not,
it always has an answer, the same as the archive over a forest, and models it afterwards. -/
theorem run_eq_archive [OrderedScalar α] {d capacity : Nat} (hDimensions : 1 ≤ d ∧ d ≤ 64)
    (hCapacity : 1 ≤ capacity) :
    ∃ (start : LinkedArchive α) (empty : Archive α),
      LinkedArchive.empty d capacity = .ok start ∧ Archive.empty d capacity = .ok empty ∧
        ∀ offers : List (Entry α), ∃ x,
          start.run offers = some ((empty.run offers).1, x) ∧ Models x (empty.run offers).2 := by
  obtain ⟨empty, hEmpty, rfl, hRooted, -⟩ := kept_empty (α := α) hDimensions hCapacity
  obtain ⟨start, hStart, hModels⟩ := exists_empty_models hEmpty
  exact ⟨start, empty, hStart, hEmpty, fun offers => models_run hModels hRooted hCapacity offers⟩

end SwapSearch.Pareto
