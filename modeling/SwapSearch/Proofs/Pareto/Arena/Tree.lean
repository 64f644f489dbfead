import Mathlib.Data.List.Chain
import Mathlib.Data.List.Nodup
import Mathlib.Data.List.Perm.Subperm
import Mathlib.Logic.Relation
import SwapSearch.Proofs.Pareto.Arena.Spelling

/-!
# SwapSearch — arenas that are trees

The pointers of an arena make it a directed graph. It is a tree if no pointer leads to
node 0, exactly one to every other node, and every node is reached from node 0. This is
about the ids that the nodes hold, whatever wrote them there, and it is the same as
spelling a forest in which every node occurs exactly once.

In a tree a node is reached along one way only, so it has a level: the number of pointers
on the way (`Level`). A pointer leads one level down, hence a walk never comes back to a
node it has passed, and the levels stay below the number of nodes. That is what the
forest is built along.

## Results

* `IsTree.length_lt_of_walk` — no walk is as long as the arena.
* `IsTree.existsUnique_walk` — every node is at the end of one walk.
* `isTree_iff`               — trees are what spells a forest.
-/

namespace SwapSearch.Pareto

open Relation

variable {α : Type}

/-- The ids that a node points to: its first child and its next sibling. -/
def Node.pointers (node : Node α) : List Nat :=
  node.content.child?.toList ++ node.sibling.toList

@[simp] theorem Node.pointers_leaf (m : Nat) (sibling : Option Nat) (slots : List (Slot α)) :
    (⟨m, sibling, .leaf slots⟩ : Node α).pointers = sibling.toList := rfl

@[simp] theorem Node.pointers_branch (m : Nat) (sibling child : Option Nat) (pivot : Slot α)
    (live : Bool) :
    (⟨m, sibling, .branch pivot live child⟩ : Node α).pointers =
      child.toList ++ sibling.toList := rfl

namespace Arena

variable {arena : Arena α}

/-- A pointer leads from one node to the other. -/
def Linked (arena : Arena α) (source target : Nat) : Prop :=
  ∃ node, arena[source]? = some node ∧ target ∈ node.pointers

/-- The nodes form a tree below node 0. -/
structure IsTree (arena : Arena α) : Prop where
  /-- No pointer leads to node 0, and exactly one to every other node. -/
  targets : (0 :: arena.toList.flatMap (·.pointers)).Perm (List.range arena.size)
  reachable : ∀ n < arena.size, ReflTransGen arena.Linked 0 n

-- ---------------------------------------------------------------------------
-- Ways in a tree
-- ---------------------------------------------------------------------------

/-- A node is reached from node 0 along `k` pointers. -/
inductive Level (arena : Arena α) : Nat → Nat → Prop
  | root : Level arena 0 0
  | step {k source target : Nat} (h : Level arena k source) (hLinked : arena.Linked source target) :
      Level arena (k + 1) target

theorem Level.exists_further {k source n : Nat} (h : Level arena k source)
    (hPath : ReflTransGen arena.Linked source n) :
    ∃ j, k ≤ j ∧ Level arena j n ∧ (j = k → source = n) := by
  induction hPath with
  | refl => exact ⟨k, Nat.le_refl _, h, fun _ => rfl⟩
  | tail _ hLinked ih =>
    obtain ⟨j, hLe, hLevel, -⟩ := ih
    exact ⟨j + 1, by omega, hLevel.step hLinked, by omega⟩

namespace IsTree

variable (h : arena.IsTree)

include h

theorem nodup : (0 :: arena.toList.flatMap (·.pointers)).Nodup :=
  h.targets.nodup_iff.mpr List.nodup_range

theorem not_linked_root {source : Nat} : ¬ arena.Linked source 0 := by
  rintro ⟨node, hNode, hTarget⟩
  refine (List.nodup_cons.mp h.nodup).1 (List.mem_flatMap.mpr ⟨node, ?_, hTarget⟩)
  exact Array.mem_toList_iff.mpr (Array.mem_of_getElem? hNode)

theorem lt_size {source target : Nat} (hLinked : arena.Linked source target) :
    target < arena.size := by
  obtain ⟨node, hNode, hTarget⟩ := hLinked
  refine List.mem_range.mp (h.targets.mem_iff.mp (List.mem_cons_of_mem _ ?_))
  exact List.mem_flatMap.mpr
    ⟨node, Array.mem_toList_iff.mpr (Array.mem_of_getElem? hNode), hTarget⟩

/-- A node has one predecessor. -/
theorem source_unique {s s' target : Nat} (hLinked : arena.Linked s target)
    (hLinked' : arena.Linked s' target) : s = s' := by
  obtain ⟨node, hNode, hTarget⟩ := hLinked
  obtain ⟨node', hNode', hTarget'⟩ := hLinked'
  have hDisjoint := (List.nodup_flatMap.mp (List.nodup_cons.mp h.nodup).2).2
  rw [List.pairwise_iff_getElem] at hDisjoint
  obtain ⟨hs, rfl⟩ := Array.getElem?_eq_some_iff.mp hNode
  obtain ⟨hs', rfl⟩ := Array.getElem?_eq_some_iff.mp hNode'
  rcases Nat.lt_trichotomy s s' with hLt | hEq | hLt
  · exact absurd hTarget' (hDisjoint s s' (by simpa) (by simpa) hLt (by simpa using hTarget))
  · exact hEq
  · exact absurd hTarget (hDisjoint s' s (by simpa) (by simpa) hLt (by simpa using hTarget'))

/-- The pointers of a node lead to different ones. -/
theorem pointers_nodup {n : Nat} {node : Node α} (hNode : arena[n]? = some node) :
    node.pointers.Nodup :=
  (List.nodup_flatMap.mp (List.nodup_cons.mp h.nodup).2).1 node
    (Array.mem_toList_iff.mpr (Array.mem_of_getElem? hNode))

theorem level_unique {j k n : Nat} (hj : Level arena j n) (hk : Level arena k n) : j = k := by
  induction hj generalizing k with
  | root =>
    cases hk with
    | root => rfl
    | step _ hLinked => exact absurd hLinked h.not_linked_root
  | step _ hLinked ih =>
    cases hk with
    | root => exact absurd hLinked h.not_linked_root
    | step hLevel hLinked' =>
      obtain rfl := h.source_unique hLinked hLinked'
      rw [ih hLevel]

omit h in
/-- The nodes of a walk are on one level after the other. -/
theorem level_of_walk {walk : List Nat} (hWalk : (0 :: walk).IsChain arena.Linked) {k n : Nat}
    (hn : (0 :: walk)[k]? = some n) : Level arena k n := by
  induction k generalizing n with
  | zero =>
    obtain rfl := Option.some.inj hn
    exact .root
  | succ k ih =>
    obtain ⟨hLt, rfl⟩ := List.getElem?_eq_some_iff.mp hn
    have hBefore : k < (0 :: walk).length := by omega
    have hLinked := List.isChain_iff_getElem.mp hWalk k (by omega)
    exact (ih (List.getElem?_eq_getElem hBefore)).step hLinked

theorem lt_size_of_level {k n : Nat} (hLevel : Level arena k n) : n < arena.size := by
  cases hLevel with
  | root => exact List.mem_range.mp (h.targets.mem_iff.mp (List.mem_cons_self ..))
  | step _ hLinked => exact h.lt_size hLinked

/-- A walk from node 0 ends before it has followed as many pointers as there are nodes. -/
theorem length_lt_of_walk {walk : List Nat} (hWalk : (0 :: walk).IsChain arena.Linked) :
    walk.length < arena.size := by
  -- each node is on a level of its own, so none is visited twice
  have hNodup : (0 :: walk).Nodup := by
    rw [List.nodup_iff_injective_getElem]
    rintro ⟨i, hi⟩ ⟨j, hj⟩ (hSame : (0 :: walk)[i] = (0 :: walk)[j])
    have hLevel := level_of_walk hWalk (List.getElem?_eq_getElem hi)
    have hLevel' := level_of_walk hWalk (List.getElem?_eq_getElem hj)
    exact Fin.ext (h.level_unique hLevel (hSame ▸ hLevel'))
  -- so a walk is a selection of the nodes there are
  have hSubperm : (0 :: walk).Subperm (List.range arena.size) := by
    refine List.Nodup.subperm hNodup fun n hn => List.mem_range.mpr ?_
    obtain ⟨k, hk⟩ := List.mem_iff_getElem?.mp hn
    exact h.lt_size_of_level (level_of_walk hWalk hk)
  have hLength := hSubperm.length_le
  rw [List.length_cons, List.length_range] at hLength
  exact hLength

omit h in
theorem exists_walk_of_level {k n : Nat} (hLevel : Level arena k n) :
    ∃ walk, (0 :: walk).IsChain arena.Linked ∧ walk.length = k ∧
      (0 :: walk).getLast? = some n := by
  induction hLevel with
  | root => exact ⟨[], List.isChain_singleton 0, rfl, rfl⟩
  | @step k source target _ hLinked ih =>
    obtain ⟨walk, hWalk, hLength, hLast⟩ := ih
    refine ⟨walk ++ [target], ?_, ?_, ?_⟩
    · rw [← List.cons_append, List.isChain_append]
      refine ⟨hWalk, List.isChain_singleton _, fun n hn t ht => ?_⟩
      rw [hLast, Option.mem_some_iff] at hn
      rw [List.head?_cons, Option.mem_some_iff] at ht
      exact hn ▸ ht ▸ hLinked
    · rw [List.length_append, hLength, List.length_singleton]
    · rw [← List.cons_append, List.getLast?_concat]

omit h in
theorem walk_concat {before : List Nat} {last : Nat} :
    (0 :: (before ++ [last])).IsChain arena.Linked ↔
      (0 :: before).IsChain arena.Linked ∧
        ∃ source, (0 :: before).getLast? = some source ∧ arena.Linked source last := by
  rw [← List.cons_append, List.isChain_append]
  obtain ⟨source, hSource⟩ : ∃ source, (0 :: before).getLast? = some source :=
    ⟨_, List.getLast?_eq_some_getLast (List.cons_ne_nil 0 before)⟩
  simp [hSource]

theorem walk_unique {n : Nat} {walk walk' : List Nat}
    (hWalk : (0 :: walk).IsChain arena.Linked) (hLast : (0 :: walk).getLast? = some n)
    (hWalk' : (0 :: walk').IsChain arena.Linked) (hLast' : (0 :: walk').getLast? = some n) :
    walk = walk' := by
  -- backwards along both walks, since a node has one predecessor and node 0 has none
  induction walk using List.reverseRecOn generalizing walk' n with
  | nil =>
    obtain rfl := Option.some.inj hLast
    rcases List.eq_nil_or_concat' walk' with rfl | ⟨before, last, rfl⟩
    · rfl
    · obtain ⟨-, source, -, hLinked⟩ := walk_concat.mp hWalk'
      rw [← List.cons_append, List.getLast?_concat] at hLast'
      obtain rfl := Option.some.inj hLast'
      exact absurd hLinked h.not_linked_root
  | append_singleton before last ih =>
    obtain ⟨hBefore, source, hSource, hLinked⟩ := walk_concat.mp hWalk
    rw [← List.cons_append, List.getLast?_concat] at hLast
    obtain rfl := Option.some.inj hLast
    rcases List.eq_nil_or_concat' walk' with rfl | ⟨before', last', rfl⟩
    · obtain rfl := Option.some.inj hLast'
      exact absurd hLinked h.not_linked_root
    · obtain ⟨hBefore', source', hSource', hLinked'⟩ := walk_concat.mp hWalk'
      rw [← List.cons_append, List.getLast?_concat] at hLast'
      obtain rfl := Option.some.inj hLast'
      obtain rfl := h.source_unique hLinked hLinked'
      rw [ih hBefore hSource hBefore' hSource']

/-- Every node is at the end of exactly one walk from node 0. -/
theorem existsUnique_walk {n : Nat} (hn : n < arena.size) :
    ∃! walk : List Nat, (0 :: walk).IsChain arena.Linked ∧ (0 :: walk).getLast? = some n := by
  obtain ⟨k, -, hLevel, -⟩ := Level.root.exists_further (h.reachable n hn)
  obtain ⟨walk, hWalk, -, hLast⟩ := exists_walk_of_level hLevel
  exact ⟨walk, ⟨hWalk, hLast⟩, fun walk' ⟨hWalk', hLast'⟩ =>
    h.walk_unique hWalk' hLast' hWalk hLast⟩

/-- Levels stay below the number of nodes. -/
theorem level_lt {k n : Nat} (hLevel : Level arena k n) : k < arena.size := by
  obtain ⟨walk, hWalk, rfl, -⟩ := exists_walk_of_level hLevel
  exact h.length_lt_of_walk hWalk

/-- Ways that start on one level and meet have started at one node. -/
theorem start_unique {k s s' n : Nat} (hs : Level arena k s) (hs' : Level arena k s')
    (hPath : ReflTransGen arena.Linked s n) (hPath' : ReflTransGen arena.Linked s' n) :
    s = s' := by
  induction hPath with
  | refl =>
    obtain ⟨j, -, hLevel, hSame⟩ := hs'.exists_further hPath'
    exact (hSame (h.level_unique hLevel hs)).symm
  | tail hFirst hLinked ih =>
    rcases hPath'.cases_tail with rfl | ⟨source, hFirst', hLinked'⟩
    · -- one way would go on below the level it started on
      obtain ⟨j, hLe, hLevel, -⟩ := hs.exists_further hFirst
      have hSame := h.level_unique hs' (hLevel.step hLinked)
      omega
    · obtain rfl := h.source_unique hLinked hLinked'
      exact ih hFirst'

-- ---------------------------------------------------------------------------
-- The forest of a tree
-- ---------------------------------------------------------------------------

/-- From a node on, a tree spells a forest. -/
theorem exists_spells {j k n : Nat} (hLevel : Level arena k n) (hBelow : arena.size ≤ k + j) :
    ∃ f, Spells arena (some n) f := by
  -- on the levels left below the node, of which there are at most as many as nodes
  induction j generalizing k n with
  | zero =>
    have hLt := h.level_lt hLevel
    omega
  | succ j ih =>
    obtain ⟨node, hNode⟩ : ∃ node, arena[n]? = some node :=
      ⟨_, Array.getElem?_eq_getElem (h.lt_size_of_level hLevel)⟩
    -- what a pointer of the node leads to is one level further down
    have hNext : ∀ cursor, cursor = node.content.child? ∨ cursor = node.sibling →
        ∃ f, Spells arena cursor f := by
      intro cursor hPointer
      cases cursor with
      | none => exact ⟨.nil, .nil⟩
      | some target =>
        have hTarget : target ∈ node.pointers := by
          rcases hPointer with hPointer | hPointer <;> simp [Node.pointers, ← hPointer]
        exact ih (hLevel.step ⟨node, hNode, hTarget⟩) (by omega)
    obtain ⟨rest, hRest⟩ := hNext node.sibling (Or.inr rfl)
    obtain ⟨children, hChildren⟩ := hNext node.content.child? (Or.inl rfl)
    obtain ⟨m, sibling, content⟩ := node
    cases content with
    | leaf slots => exact ⟨_, .leaf hNode hRest⟩
    | branch pivot live child => exact ⟨_, .branch hNode hChildren hRest⟩

end IsTree

namespace Spells

variable {cursor : Option Nat} {f : Forest α}

/-- Pointers do not lead out of what is spelled. -/
theorem mem_of_linked (h : Spells arena cursor f) {source target : Nat}
    (hSource : source ∈ f.serials) (hLinked : arena.Linked source target) :
    target ∈ f.serials := by
  obtain ⟨node, hHere, hTarget⟩ := hLinked
  -- a pointer of a node leads to the first of its children or of its later siblings
  induction h with
  | nil => exact absurd hSource List.not_mem_nil
  | leaf hNode hRest ih =>
    rcases List.mem_cons.mp hSource with rfl | hSource
    · obtain rfl := Option.some.inj (hNode.symm.trans hHere)
      rw [Node.pointers_leaf, Option.mem_toList] at hTarget
      exact List.mem_cons_of_mem _ (List.mem_of_head? (hRest.cursor_eq.symm.trans hTarget))
    · exact List.mem_cons_of_mem _ (ih hSource)
  | branch hNode hChildren hRest ihChildren ihRest =>
    rcases List.mem_cons.mp hSource with rfl | hSource
    · obtain rfl := Option.some.inj (hNode.symm.trans hHere)
      rw [Node.pointers_branch, List.mem_append, Option.mem_toList, Option.mem_toList] at hTarget
      refine List.mem_cons_of_mem _ (List.mem_append.mpr (hTarget.imp ?_ ?_))
      · exact fun hFirst => List.mem_of_head? (hChildren.cursor_eq.symm.trans hFirst)
      · exact fun hNext => List.mem_of_head? (hRest.cursor_eq.symm.trans hNext)
    · refine List.mem_cons_of_mem _ (List.mem_append.mpr ?_)
      exact (List.mem_append.mp hSource).imp ihChildren ihRest

theorem mem_of_path (h : Spells arena cursor f) {source target : Nat}
    (hSource : source ∈ f.serials) (hPath : ReflTransGen arena.Linked source target) :
    target ∈ f.serials := by
  induction hPath with
  | refl => exact hSource
  | tail _ hLinked ih => exact h.mem_of_linked ih hLinked

/-- Every node of what is spelled is reached from the first one. -/
theorem exists_path (h : Spells arena cursor f) {n : Nat} (hn : n ∈ f.serials) :
    ∃ first, cursor = some first ∧ ReflTransGen arena.Linked first n := by
  induction h with
  | nil => exact absurd hn List.not_mem_nil
  | @leaf m id sibling slots rest hNode _ ih =>
    refine ⟨id, rfl, ?_⟩
    rcases List.mem_cons.mp hn with rfl | hn
    · exact .refl
    · obtain ⟨next, rfl, hPath⟩ := ih hn
      exact hPath.head ⟨_, hNode, by simp⟩
  | @branch m id sibling child pivot live children rest hNode _ _ ihChildren ihRest =>
    refine ⟨id, rfl, ?_⟩
    rcases List.mem_cons.mp hn with rfl | hn
    · exact .refl
    · rcases List.mem_append.mp hn with hn | hn
      · obtain ⟨next, rfl, hPath⟩ := ihChildren hn
        exact hPath.head ⟨_, hNode, by simp⟩
      · obtain ⟨next, rfl, hPath⟩ := ihRest hn
        exact hPath.head ⟨_, hNode, by simp⟩

/-- A forest spelled by a tree has no node twice. -/
theorem nodup (hTree : arena.IsTree) (h : Spells arena cursor f)
    (hLevel : ∀ first, cursor = some first → ∃ k, Level arena k first) : f.serials.Nodup := by
  -- a way back from a successor would put a node on two levels
  have hAway : ∀ {k id next}, Level arena k id → arena.Linked id next →
      ¬ ReflTransGen arena.Linked next id := by
    intro k id next hHere hLinked hBack
    obtain ⟨j, hLe, hAgain, -⟩ := (hHere.step hLinked).exists_further hBack
    have hSame := hTree.level_unique hHere hAgain
    omega
  induction h with
  | nil => exact List.nodup_nil
  | @leaf m id sibling slots rest hNode hRest ih =>
    obtain ⟨k, hHere⟩ := hLevel id rfl
    have hLinked : ∀ next, sibling = some next → arena.Linked id next := by
      rintro next rfl
      exact ⟨_, hNode, by simp⟩
    refine Forest.nodup_leaf.mpr ⟨fun hMem => ?_, ih fun next hNext => ?_⟩
    · obtain ⟨next, hNext, hBack⟩ := hRest.exists_path hMem
      exact hAway hHere (hLinked next hNext) hBack
    · exact ⟨k + 1, hHere.step (hLinked next hNext)⟩
  | @branch m id sibling child pivot live children rest hNode hChildren hRest ihChildren ihRest =>
    obtain ⟨k, hHere⟩ := hLevel id rfl
    have hBelow : ∀ next, child = some next → arena.Linked id next := by
      rintro next rfl
      exact ⟨_, hNode, by simp⟩
    have hBehind : ∀ next, sibling = some next → arena.Linked id next := by
      rintro next rfl
      exact ⟨_, hNode, by simp⟩
    refine Forest.nodup_branch.mpr ⟨fun hMem => ?_, fun hMem => ?_,
      ihChildren fun next hNext => ⟨k + 1, hHere.step (hBelow next hNext)⟩,
      ihRest fun next hNext => ⟨k + 1, hHere.step (hBehind next hNext)⟩, fun n hn hn' => ?_⟩
    · obtain ⟨next, hNext, hBack⟩ := hChildren.exists_path hMem
      exact hAway hHere (hBelow next hNext) hBack
    · obtain ⟨next, hNext, hBack⟩ := hRest.exists_path hMem
      exact hAway hHere (hBehind next hNext) hBack
    · -- the ways through the first child and the sibling would meet
      obtain ⟨first, rfl, hPath⟩ := hChildren.exists_path hn
      obtain ⟨next, rfl, hPath'⟩ := hRest.exists_path hn'
      obtain rfl := hTree.start_unique (hHere.step (hBelow first rfl))
        (hHere.step (hBehind next rfl)) hPath hPath'
      have hTwice := hTree.pointers_nodup hNode
      simp at hTwice

end Spells

-- ---------------------------------------------------------------------------
-- All nodes of a forest
-- ---------------------------------------------------------------------------

end Arena

/-- The nodes of a forest as an arena holds them, each before what is below it and behind it. -/
def Forest.listing : Forest α → List (Node α)
  | nil => []
  | leaf m _ slots rest => ⟨m, rest.head?, .leaf slots⟩ :: listing rest
  | branch m _ pivot live children rest =>
    ⟨m, rest.head?, .branch pivot live children.head?⟩ :: (listing children ++ listing rest)

theorem Forest.targets_listing (f : Forest α) :
    (f.head?.toList ++ f.listing.flatMap (·.pointers)).Perm f.serials := by
  induction f with
  | nil => exact List.Perm.refl _
  | leaf m n slots rest ih =>
    rw [listing, List.flatMap_cons, Node.pointers_leaf]
    exact ih.cons n
  | branch m n pivot live children rest ihChildren ihRest =>
    rw [listing, List.flatMap_cons, List.flatMap_append, Node.pointers_branch]
    refine List.Perm.trans ?_ ((ihChildren.append ihRest).cons n)
    simp only [head?, serials, List.head?_cons, Option.toList_some, List.cons_append,
      List.nil_append, List.append_assoc]
    exact ((List.perm_append_comm_assoc _ _ _).append_left _).cons n

namespace Arena

variable {arena : Arena α} {cursor : Option Nat} {f : Forest α}

theorem Spells.map_serials (h : Spells arena cursor f) :
    f.serials.map (fun n => arena[n]?) = f.listing.map some := by
  induction h with
  | nil => rfl
  | leaf hNode hRest ih =>
    simp only [Forest.serials, Forest.listing, List.map_cons, hNode, ih, hRest.cursor_eq]
  | branch hNode hChildren hRest ihChildren ihRest =>
    simp only [Forest.serials, Forest.listing, List.map_cons, List.map_append, hNode, ihChildren,
      ihRest, hChildren.cursor_eq, hRest.cursor_eq]

/-- A forest in which every id occurs lists all nodes. -/
theorem Spells.listing_perm (h : Spells arena cursor f)
    (hSerials : f.serials.Perm (List.range arena.size)) : arena.toList.Perm f.listing := by
  have hNodes : (List.range arena.size).map (fun n => arena[n]?) = arena.toList.map some := by
    refine List.ext_getElem (by simp) fun n hn _ => ?_
    have hLt : n < arena.size := by simpa using hn
    simp [hLt]
  have hPerm := hSerials.symm.map fun n => arena[n]?
  rw [hNodes, h.map_serials] at hPerm
  exact (List.map_perm_map_iff fun _ _ => Option.some.inj).mp hPerm

/-- An arena is a tree exactly if it spells a forest that is all of it. -/
theorem isTree_iff : arena.IsTree ↔
    ∃ f, Spells arena (some 0) f ∧ f.serials.Perm (List.range arena.size) := by
  constructor
  · intro hTree
    obtain ⟨f, h⟩ := hTree.exists_spells .root (Nat.le_add_left arena.size 0)
    have hRoot : 0 ∈ f.serials := List.mem_of_head? h.cursor_eq.symm
    -- spelled from the root, so nothing is spelled twice
    have hNodup : f.serials.Nodup := h.nodup hTree fun first hFirst =>
      ⟨0, Option.some.inj hFirst ▸ .root⟩
    refine ⟨f, h, (List.perm_ext_iff_of_nodup hNodup List.nodup_range).mpr fun n => ?_⟩
    rw [List.mem_range]
    exact ⟨h.lt_size n, fun hn => h.mem_of_path hRoot (hTree.reachable n hn)⟩
  · rintro ⟨f, h, hSerials⟩
    have hHead : f.head? = some 0 := h.cursor_eq.symm
    refine ⟨?_, fun n hn => ?_⟩
    -- each node but the first is pointed to once in a forest, and the listing is the arena
    · have hTargets := f.targets_listing
      rw [hHead] at hTargets
      refine (List.Perm.cons 0 ?_).trans (hTargets.trans hSerials)
      exact (h.listing_perm hSerials).flatMap_right _
    · obtain ⟨first, hFirst, hPath⟩ :=
        h.exists_path (hSerials.mem_iff.mpr (List.mem_range.mpr hn))
      obtain rfl := Option.some.inj hFirst
      exact hPath

end Arena

end SwapSearch.Pareto
