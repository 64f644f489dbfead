import SwapSearch.Proofs.Pareto.Arena.Tree

/-!
# SwapSearch — regions in an arena

How the nodes of an arena are laid out by region, said of the ids that they hold. The
children of a branch are its first child and what is reached from there by going from
sibling to sibling; what lies below a node is reached by going from branch to child.

* Siblings ascend by region (`Ascending`).
* Every slot and pivot below a branch has, relative to the pivot of the branch, the region
  of the child it lies below or in (`Partitioned`). It does not matter whether a pivot is
  live.

An arena that spells a forest is laid out in this way exactly if the forest is arranged.

## Results

* `Spells.ascending`, `Spells.partitioned` — the layout of an arranged forest.
* `Spells.arranged`                        — the forest of such a layout.
-/

namespace SwapSearch.Pareto

open Relation

variable {α : Type}

namespace Content

/-- The vectors of the slots, or of the pivot, live or not. -/
def vectors : Content α → List (List α)
  | .leaf slots => slots.map (·.vector)
  | .branch pivot _ _ => [pivot.vector]

/-- The slots, if there is a bucket. -/
def buckets : Content α → List (List (Slot α))
  | .leaf slots => [slots]
  | .branch .. => []

end Content

-- ---------------------------------------------------------------------------
-- What the nodes hold
-- ---------------------------------------------------------------------------

namespace Forest

theorem entries_listing (f : Forest α) : f.listing.flatMap (·.content.entries) = f.stored := by
  induction f with
  | nil => rfl
  | leaf m n slots rest ih => rw [listing, List.flatMap_cons, ih, stored_leaf, Content.entries]
  | branch m n pivot live children rest ihChildren ihRest =>
    rw [listing, List.flatMap_cons, List.flatMap_append, ihChildren, ihRest, stored_branch,
      Content.entries]

theorem vectors_listing (f : Forest α) : f.listing.flatMap (·.content.vectors) = f.vectors := by
  induction f with
  | nil => rfl
  | leaf m n slots rest ih => rw [listing, List.flatMap_cons, ih, vectors, Content.vectors]
  | branch m n pivot live children rest ihChildren ihRest =>
    rw [listing, List.flatMap_cons, List.flatMap_append, ihChildren, ihRest, vectors,
      Content.vectors, List.singleton_append]

theorem buckets_listing (f : Forest α) : f.listing.flatMap (·.content.buckets) = f.buckets := by
  induction f with
  | nil => rfl
  | leaf m n slots rest ih =>
    rw [listing, List.flatMap_cons, ih, buckets, Content.buckets, List.singleton_append]
  | branch m n pivot live children rest ihChildren ihRest =>
    rw [listing, List.flatMap_cons, List.flatMap_append, ihChildren, ihRest, buckets,
      Content.buckets, List.nil_append]

end Forest

namespace Arena

variable {arena : Arena α} {cursor : Option Nat} {f : Forest α}

theorem Spells.mem_listing (h : Spells arena cursor f) {n : Nat} (hn : n ∈ f.serials)
    {node : Node α} (hNode : arena[n]? = some node) : node ∈ f.listing := by
  have hMem : arena[n]? ∈ f.serials.map fun n => arena[n]? := List.mem_map_of_mem hn
  rw [h.map_serials, hNode] at hMem
  simpa using hMem

theorem Spells.mem_vectors (h : Spells arena cursor f) {n : Nat} (hn : n ∈ f.serials)
    {node : Node α} (hNode : arena[n]? = some node) {v : List α} (hv : v ∈ node.content.vectors) :
    v ∈ f.vectors := by
  rw [← f.vectors_listing]
  exact List.mem_flatMap.mpr ⟨node, h.mem_listing hn hNode, hv⟩

theorem Spells.exists_of_mem_vectors (h : Spells arena cursor f) {v : List α}
    (hv : v ∈ f.vectors) :
    ∃ n ∈ f.serials, ∃ node, arena[n]? = some node ∧ v ∈ node.content.vectors := by
  rw [← f.vectors_listing] at hv
  obtain ⟨node, hMem, hv⟩ := List.mem_flatMap.mp hv
  have hSome : some node ∈ f.listing.map some := List.mem_map_of_mem hMem
  rw [← h.map_serials] at hSome
  obtain ⟨n, hn, hNode⟩ := List.mem_map.mp hSome
  exact ⟨n, hn, node, hNode, hv⟩

-- ---------------------------------------------------------------------------
-- Siblings and children
-- ---------------------------------------------------------------------------

/-- The second node is the next sibling of the first. -/
def Sibling (arena : Arena α) (n next : Nat) : Prop :=
  ∃ node, arena[n]? = some node ∧ node.sibling = some next

/-- The node is a child of the branch. -/
def Child (arena : Arena α) (branch n : Nat) : Prop :=
  ∃ node first, arena[branch]? = some node ∧ node.content.child? = some first ∧
    ReflTransGen arena.Sibling first n

theorem Sibling.linked {n next : Nat} (h : arena.Sibling n next) : arena.Linked n next := by
  obtain ⟨node, hNode, hNext⟩ := h
  exact ⟨node, hNode, by simp [Node.pointers, hNext]⟩

theorem Child.path {branch n : Nat} (h : arena.Child branch n) :
    ReflTransGen arena.Linked branch n := by
  obtain ⟨node, first, hNode, hFirst, hSiblings⟩ := h
  have hLinked : arena.Linked branch first := ⟨node, hNode, by simp [Node.pointers, hFirst]⟩
  exact (ReflTransGen.mono (fun _ _ => Sibling.linked) first n hSiblings).head hLinked

/-- Siblings ascend by region. -/
def Ascending (arena : Arena α) : Prop :=
  ∀ {s t : Nat} {node next : Node α}, arena[s]? = some node → node.sibling = some t →
    arena[t]? = some next → node.region < next.region

/-- Every slot and pivot in a child of a branch, or below it, has the region of the child relative
to the pivot of the branch. -/
def Partitioned [Scalar α] (arena : Arena α) : Prop :=
  ∀ {b k n : Nat} {branch child node : Node α} {pivot : Slot α} {live : Bool}
    {first : Option Nat}, arena[b]? = some branch → branch.content = .branch pivot live first →
    arena.Child b k → arena[k]? = some child →
    ReflTransGen arena.Child k n → arena[n]? = some node →
    ∀ v ∈ node.content.vectors, region pivot.vector v = child.region

namespace Spells

/-- Every node of what is spelled is one of the siblings at the top or below one. -/
theorem exists_top (h : Spells arena cursor f) {n : Nat} (hn : n ∈ f.serials) :
    ∃ first top, cursor = some first ∧ ReflTransGen arena.Sibling first top ∧
      ReflTransGen arena.Child top n := by
  -- on the spelling; below a branch the chain of its children is where a walk goes on
  induction h with
  | nil => exact absurd hn List.not_mem_nil
  | @leaf m id sibling slots rest hNode _ ih =>
    rcases List.mem_cons.mp hn with rfl | hn
    · exact ⟨n, n, rfl, .refl, .refl⟩
    · obtain ⟨next, top, rfl, hSiblings, hBelow⟩ := ih hn
      exact ⟨id, top, rfl, hSiblings.head ⟨_, hNode, rfl⟩, hBelow⟩
  | @branch m id sibling child pivot live children rest hNode _ _ ihChildren ihRest =>
    rcases List.mem_cons.mp hn with rfl | hn
    · exact ⟨n, n, rfl, .refl, .refl⟩
    · rcases List.mem_append.mp hn with hn | hn
      · obtain ⟨first, top, rfl, hSiblings, hBelow⟩ := ihChildren hn
        exact ⟨id, id, rfl, .refl, hBelow.head ⟨_, first, hNode, rfl, hSiblings⟩⟩
      · obtain ⟨next, top, rfl, hSiblings, hBelow⟩ := ihRest hn
        exact ⟨id, top, rfl, hSiblings.head ⟨_, hNode, rfl⟩, hBelow⟩

theorem mem_of_child (h : Spells arena cursor f) {top n : Nat} (hTop : top ∈ f.serials)
    (hBelow : ReflTransGen arena.Child top n) : n ∈ f.serials := by
  induction hBelow with
  | refl => exact hTop
  | tail _ hChild ih => exact h.mem_of_path ih hChild.path

theorem region_mem (h : Spells arena cursor f) {first : Nat} {node : Node α}
    (hFirst : cursor = some first) (hNode : arena[first]? = some node) :
    node.region ∈ f.regions := by
  cases h with
  | nil => exact nomatch hFirst
  | leaf hHere =>
    obtain rfl := Option.some.inj hFirst
    obtain rfl := Option.some.inj (hHere.symm.trans hNode)
    exact List.mem_cons_self ..
  | branch hHere =>
    obtain rfl := Option.some.inj hFirst
    obtain rfl := Option.some.inj (hHere.symm.trans hNode)
    exact List.mem_cons_self ..

/-- Where the first node has region 0 and no sibling, it is the only tree at the top. -/
theorem regions_root (h : Spells arena (some 0) f) {content : Content α}
    (hRoot : arena[0]? = some ⟨0, none, content⟩) : f.regions = [0] := by
  cases h with
  | leaf hNode hRest =>
    obtain ⟨rfl, rfl, -⟩ := Node.mk.inj (Option.some.inj (hNode.symm.trans hRoot))
    cases hRest
    rfl
  | branch hNode _ hRest =>
    obtain ⟨rfl, rfl, -⟩ := Node.mk.inj (Option.some.inj (hNode.symm.trans hRoot))
    cases hRest
    rfl

variable [Scalar α] {key : List α → Nat}

-- ---------------------------------------------------------------------------
-- The layout of an arranged forest
-- ---------------------------------------------------------------------------

theorem ascending (h : Spells arena cursor f) (hArranged : f.Arranged key) {s t : Nat}
    {node next : Node α} (hs : s ∈ f.serials) (hNode : arena[s]? = some node)
    (hSibling : node.sibling = some t) (hNext : arena[t]? = some next) :
    node.region < next.region := by
  induction h generalizing key with
  | nil => exact absurd hs List.not_mem_nil
  | leaf hHere hRest ih =>
    obtain ⟨-, hAbove, hArrangedRest⟩ := hArranged
    rcases List.mem_cons.mp hs with rfl | hs
    · obtain rfl := Option.some.inj (hHere.symm.trans hNode)
      -- the next sibling is the first of the rest, which lies above
      exact hAbove _ (hRest.region_mem hSibling hNext)
    · exact ih hArrangedRest hs
  | branch hHere hChildren hRest ihChildren ihRest =>
    obtain ⟨-, hArrangedBelow, hAbove, hArrangedRest⟩ := hArranged
    rcases List.mem_cons.mp hs with rfl | hs
    · obtain rfl := Option.some.inj (hHere.symm.trans hNode)
      exact hAbove _ (hRest.region_mem hSibling hNext)
    · rcases List.mem_append.mp hs with hs | hs
      · exact ihChildren hArrangedBelow hs
      · exact ihRest hArrangedRest hs

/-- What is in a tree at the top or below it has the region of the tree. -/
theorem key_of_top (h : Spells arena cursor f) (hArranged : f.Arranged key) {first k n : Nat}
    {top node : Node α} (hFirst : cursor = some first)
    (hSiblings : ReflTransGen arena.Sibling first k) (hTop : arena[k]? = some top)
    (hBelow : ReflTransGen arena.Child k n) (hNode : arena[n]? = some node) {v : List α}
    (hv : v ∈ node.content.vectors) : key v = top.region := by
  -- along the siblings to the top in question, then into its bucket or below its branch
  induction h generalizing first with
  | nil => exact nomatch hFirst
  | leaf hHere hRest ih =>
    obtain ⟨hSlots, -, hArrangedRest⟩ := hArranged
    obtain rfl := Option.some.inj hFirst
    rcases hSiblings.cases_head with rfl | ⟨next, ⟨_, hSame, hNext⟩, hSiblings⟩
    · obtain rfl := Option.some.inj (hHere.symm.trans hTop)
      rcases hBelow.cases_head with rfl | ⟨_, ⟨_, _, hSame, hChild, -⟩, -⟩
      · obtain rfl := Option.some.inj (hHere.symm.trans hNode)
        obtain ⟨s, hs, rfl⟩ := List.mem_map.mp hv
        exact hSlots s hs
      · obtain rfl := Option.some.inj (hHere.symm.trans hSame)
        exact nomatch hChild
    · obtain rfl := Option.some.inj (hHere.symm.trans hSame)
      exact ih hArrangedRest hNext hSiblings
  | branch hHere hChildren hRest ihChildren ihRest =>
    obtain ⟨⟨hPivot, hInside⟩, -, -, hArrangedRest⟩ := hArranged
    obtain rfl := Option.some.inj hFirst
    rcases hSiblings.cases_head with rfl | ⟨next, ⟨_, hSame, hNext⟩, hSiblings⟩
    · obtain rfl := Option.some.inj (hHere.symm.trans hTop)
      rcases hBelow.cases_head with rfl | ⟨child, ⟨_, start, hSame, hChild, hChain⟩, hBelow⟩
      · obtain rfl := Option.some.inj (hHere.symm.trans hNode)
        obtain rfl := List.mem_singleton.mp hv
        exact hPivot
      · obtain rfl := Option.some.inj (hHere.symm.trans hSame)
        have hStart := List.mem_of_head? (hChildren.cursor_eq.symm.trans hChild)
        -- what is below the branch is spelled by its children, whose vectors are in its region
        have hMem := hChildren.mem_of_path hStart
          (ReflTransGen.mono (fun _ _ => Sibling.linked) start child hChain)
        exact hInside v (hChildren.mem_vectors (hChildren.mem_of_child hMem hBelow) hNode hv)
    · obtain rfl := Option.some.inj (hHere.symm.trans hSame)
      exact ihRest hArrangedRest hNext hSiblings

/-- Below a branch there is an arranged forest. -/
theorem exists_children (h : Spells arena cursor f) (hArranged : f.Arranged key) {b : Nat}
    {branch : Node α} {pivot : Slot α} {live : Bool} {child : Option Nat} (hb : b ∈ f.serials)
    (hBranch : arena[b]? = some branch) (hContent : branch.content = .branch pivot live child) :
    ∃ children, Spells arena child children ∧ children.Arranged (region pivot.vector) := by
  induction h generalizing key with
  | nil => exact absurd hb List.not_mem_nil
  | leaf hHere hRest ih =>
    obtain ⟨-, -, hArrangedRest⟩ := hArranged
    rcases List.mem_cons.mp hb with rfl | hb
    · obtain rfl := Option.some.inj (hHere.symm.trans hBranch)
      exact nomatch hContent
    · exact ih hArrangedRest hb
  | branch hHere hChildren hRest ihChildren ihRest =>
    obtain ⟨-, hArrangedBelow, -, hArrangedRest⟩ := hArranged
    rcases List.mem_cons.mp hb with rfl | hb
    · obtain rfl := Option.some.inj (hHere.symm.trans hBranch)
      obtain ⟨rfl, rfl, rfl⟩ := Content.branch.inj hContent
      exact ⟨_, hChildren, hArrangedBelow⟩
    · rcases List.mem_append.mp hb with hb | hb
      · exact ihChildren hArrangedBelow hb
      · exact ihRest hArrangedRest hb

theorem partitioned (h : Spells arena (some 0) f) (hArranged : f.Arranged key)
    (hSerials : f.serials.Perm (List.range arena.size)) : arena.Partitioned := by
  intro b k n branch child node pivot live first hBranch hContent hChild hTop hBelow hNode v hv
  have hb : b ∈ f.serials :=
    hSerials.mem_iff.mpr (List.mem_range.mpr (lt_of_getElem? hBranch))
  obtain ⟨children, hChildren, hArrangedBelow⟩ :=
    h.exists_children hArranged hb hBranch hContent
  obtain ⟨_, start, hSame, hStart, hSiblings⟩ := hChild
  obtain rfl := Option.some.inj (hBranch.symm.trans hSame)
  rw [hContent] at hStart
  exact hChildren.key_of_top hArrangedBelow hStart hSiblings hTop hBelow hNode hv

-- ---------------------------------------------------------------------------
-- The forest of a layout
-- ---------------------------------------------------------------------------

/-- What lies above the next sibling lies above all later ones. -/
theorem lt_regions (hAscending : arena.Ascending) {rest : Forest α} {id : Nat} {node : Node α}
    (hNode : arena[id]? = some node) (hRest : Spells arena node.sibling rest)
    (hArranged : rest.Arranged key) : ∀ r ∈ rest.regions, node.region < r := by
  intro r hr
  generalize hSibling : node.sibling = sibling at hRest
  -- one step up to the next sibling, and those behind it are above that one
  cases hRest with
  | nil => exact nomatch hr
  | leaf hNext _ =>
    have hLt := hAscending hNode hSibling hNext
    rcases List.mem_cons.mp hr with rfl | hr
    · exact hLt
    · exact Nat.lt_trans hLt (hArranged.2.1 r hr)
  | branch hNext _ _ =>
    have hLt := hAscending hNode hSibling hNext
    rcases List.mem_cons.mp hr with rfl | hr
    · exact hLt
    · exact Nat.lt_trans hLt (hArranged.2.2.1 r hr)

/-- A forest that ascends and is partitioned is arranged. -/
theorem arranged (hAscending : arena.Ascending) (hPartitioned : arena.Partitioned)
    (h : Spells arena cursor f)
    (hTop : ∀ {first k n : Nat} {top node : Node α}, cursor = some first →
      ReflTransGen arena.Sibling first k → arena[k]? = some top →
      ReflTransGen arena.Child k n → arena[n]? = some node →
      ∀ v ∈ node.content.vectors, key v = top.region) : f.Arranged key := by
  -- on the spelling; what is said of the top holds of the children by the partition
  induction h generalizing key with
  | nil => trivial
  | @leaf m id sibling slots rest hNode hRest ih =>
    have hArrangedRest : rest.Arranged key := ih fun hNext hSiblings =>
      hTop rfl (hSiblings.head ⟨_, hNode, hNext⟩)
    refine ⟨fun s hs => ?_, lt_regions hAscending hNode hRest hArrangedRest, hArrangedRest⟩
    exact hTop rfl .refl hNode .refl hNode _ (List.mem_map_of_mem hs)
  | @branch m id sibling child pivot live children rest hNode hChildren hRest ihChildren ihRest =>
    have hArrangedRest : rest.Arranged key := ihRest fun hNext hSiblings =>
      hTop rfl (hSiblings.head ⟨_, hNode, hNext⟩)
    have hArrangedBelow : children.Arranged (region pivot.vector) :=
      ihChildren fun hFirst hSiblings hChild hBelow hBelowNode =>
        hPartitioned hNode rfl ⟨_, _, hNode, hFirst, hSiblings⟩ hChild hBelow hBelowNode
    refine ⟨⟨?_, fun v hv => ?_⟩, hArrangedBelow,
      lt_regions hAscending hNode hRest hArrangedRest, hArrangedRest⟩
    · exact hTop rfl .refl hNode .refl hNode _ (List.mem_singleton_self _)
    · obtain ⟨n, hn, node, hBelowNode, hv⟩ := hChildren.exists_of_mem_vectors hv
      obtain ⟨first, top, hFirst, hSiblings, hBelow⟩ := hChildren.exists_top hn
      exact hTop rfl .refl hNode (hBelow.head ⟨_, first, hNode, hFirst, hSiblings⟩) hBelowNode v hv

end Spells

end Arena

end SwapSearch.Pareto
