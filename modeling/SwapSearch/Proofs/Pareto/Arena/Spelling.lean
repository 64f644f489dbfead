import Mathlib.Data.List.Nodup
import SwapSearch.Pareto.Arena
import SwapSearch.Proofs.Pareto.Nodes

/-!
# SwapSearch — the forest in an arena

An arena is a graph. Where it is a forest, it *spells* one: from a pointer on, siblings
and children lead through the nodes of the forest, each with the content the forest
says. A serial of the forest is then an id of the arena, and the forest is the only one
that the arena spells from there.

An operation writes to some nodes. What it leaves alone still spells what it spelled
(`Spells.congr`), so what matters of an operation is which forest its own nodes spell
afterwards and that it has not touched any others (`Rewrites`). The forest must not
contain a node twice for this, since a write to one place would change the other as well.

## Results

* `Spells.unique`, `Spells.congr` — what an arena spells.
* `Rewrites.behindLeaf`, `Rewrites.behindBranch`, `Rewrites.below` — from a part of a
  forest to the whole.
-/

namespace SwapSearch.Pareto

variable {α : Type}

-- ---------------------------------------------------------------------------
-- Forests without repetition
-- ---------------------------------------------------------------------------

namespace Forest

variable {m id : Nat} {slots : List (Slot α)} {pivot : Slot α} {live : Bool}
  {children rest : Forest α}

theorem nodup_leaf :
    (leaf m id slots rest).serials.Nodup ↔ id ∉ rest.serials ∧ rest.serials.Nodup :=
  List.nodup_cons

/-- No node is below a branch and behind it, and none is the branch itself. -/
structure Separate (id : Nat) (children rest : Forest α) : Prop where
  not_below : id ∉ children.serials
  not_behind : id ∉ rest.serials
  below : children.serials.Nodup
  behind : rest.serials.Nodup
  apart : ∀ n ∈ children.serials, n ∉ rest.serials

theorem Separate.congr {children' : Forest α} (h : Separate id children rest)
    (hSame : children'.serials = children.serials) : Separate id children' rest where
  not_below := hSame ▸ h.not_below
  not_behind := h.not_behind
  below := hSame ▸ h.below
  behind := h.behind
  apart := hSame ▸ h.apart

theorem nodup_branch :
    (branch m id pivot live children rest).serials.Nodup ↔ Separate id children rest := by
  rw [serials, List.nodup_cons, List.mem_append, not_or, List.nodup_append']
  constructor
  · rintro ⟨⟨hBelow, hBehind⟩, hChildren, hRest, hApart⟩
    exact ⟨hBelow, hBehind, hChildren, hRest, fun n hn => hApart hn⟩
  · intro h
    exact ⟨⟨h.not_below, h.not_behind⟩, h.below, h.behind, fun n hn => h.apart n hn⟩

end Forest

namespace Arena

variable {arena arena' arena'' : Arena α} {cursor : Option Nat} {f f' f'' : Forest α}

-- ---------------------------------------------------------------------------
-- Writing
-- ---------------------------------------------------------------------------

theorem getElem?_write_self {id : Nat} {old : Node α} (h : arena[id]? = some old)
    (node : Node α) : (arena.setIfInBounds id node)[id]? = some node :=
  Array.getElem?_setIfInBounds_self_of_lt (Array.getElem?_eq_some_iff.mp h).1

theorem getElem?_write_ne {id n : Nat} (h : id ≠ n) (node : Node α) :
    (arena.setIfInBounds id node)[n]? = arena[n]? :=
  Array.getElem?_setIfInBounds_ne h

theorem lt_of_getElem? {id : Nat} {node : Node α} (h : arena[id]? = some node) :
    id < arena.size :=
  (Array.getElem?_eq_some_iff.mp h).1

-- ---------------------------------------------------------------------------
-- Spelling
-- ---------------------------------------------------------------------------

/-- The nodes from `cursor` on, along siblings and down children, are those of the forest. -/
inductive Spells (arena : Arena α) : (cursor : Option Nat) → Forest α → Prop
  | nil : Spells arena none .nil
  | leaf {m id : Nat} {sibling : Option Nat} {slots : List (Slot α)} {rest : Forest α}
      (hNode : arena[id]? = some ⟨m, sibling, .leaf slots⟩) (hRest : Spells arena sibling rest) :
      Spells arena (some id) (.leaf m id slots rest)
  | branch {m id : Nat} {sibling child : Option Nat} {pivot : Slot α} {live : Bool}
      {children rest : Forest α}
      (hNode : arena[id]? = some ⟨m, sibling, .branch pivot live child⟩)
      (hChildren : Spells arena child children) (hRest : Spells arena sibling rest) :
      Spells arena (some id) (.branch m id pivot live children rest)

namespace Spells

theorem cursor_eq (h : Spells arena cursor f) : cursor = f.head? := by
  cases h <;> rfl

theorem lt_size (h : Spells arena cursor f) : ∀ n ∈ f.serials, n < arena.size := by
  induction h with
  | nil => exact nofun
  | leaf hNode _ ih => exact List.forall_mem_cons.mpr ⟨lt_of_getElem? hNode, ih⟩
  | branch hNode _ _ ihChildren ihRest =>
    exact List.forall_mem_cons.mpr
      ⟨lt_of_getElem? hNode, List.forall_mem_append.mpr ⟨ihChildren, ihRest⟩⟩

/-- An arena spells one forest at most. -/
theorem unique (h : Spells arena cursor f) (h' : Spells arena cursor f') : f = f' := by
  -- node by node: the content at an index says which case both spellings are in
  induction h generalizing f' with
  | nil =>
    cases h'
    rfl
  | leaf hNode hRest ih =>
    cases h' with
    | leaf hNode' hRest' =>
      obtain ⟨rfl, rfl, hSame⟩ := Node.mk.inj (Option.some.inj (hNode.symm.trans hNode'))
      obtain rfl := Content.leaf.inj hSame
      rw [ih hRest']
    | branch hNode' hChildren' hRest' =>
      exact nomatch (Node.mk.inj (Option.some.inj (hNode.symm.trans hNode'))).2.2
  | branch hNode hChildren hRest ihChildren ihRest =>
    cases h' with
    | leaf hNode' hRest' =>
      exact nomatch (Node.mk.inj (Option.some.inj (hNode.symm.trans hNode'))).2.2
    | branch hNode' hChildren' hRest' =>
      obtain ⟨rfl, rfl, hSame⟩ := Node.mk.inj (Option.some.inj (hNode.symm.trans hNode'))
      obtain ⟨rfl, rfl, rfl⟩ := Content.branch.inj hSame
      rw [ihChildren hChildren', ihRest hRest']

/-- An arena that has the same nodes there spells the same. -/
theorem congr (h : Spells arena cursor f) (hSame : ∀ n ∈ f.serials, arena'[n]? = arena[n]?) :
    Spells arena' cursor f := by
  induction h with
  | nil => exact .nil
  | leaf hNode _ ih =>
    obtain ⟨hHere, hBehind⟩ := List.forall_mem_cons.mp hSame
    exact .leaf (hHere.trans hNode) (ih hBehind)
  | branch hNode _ _ ihChildren ihRest =>
    obtain ⟨hHere, hOthers⟩ := List.forall_mem_cons.mp hSame
    obtain ⟨hBelow, hBehind⟩ := List.forall_mem_append.mp hOthers
    exact .branch (hHere.trans hNode) (ihChildren hBelow) (ihRest hBehind)

/-- Writing to a node elsewhere. -/
theorem write (h : Spells arena cursor f) {id : Nat} (hElsewhere : id ∉ f.serials)
    (node : Node α) : Spells (arena.setIfInBounds id node) cursor f := by
  refine h.congr fun n hn => getElem?_write_ne (fun hSame => hElsewhere ?_) node
  rwa [hSame]

theorem push (h : Spells arena cursor f) (node : Node α) : Spells (arena.push node) cursor f :=
  h.congr fun n hn => Array.getElem?_push_lt (h.lt_size n hn) ▸
    (Array.getElem?_eq_getElem (h.lt_size n hn)).symm

end Spells

-- ---------------------------------------------------------------------------
-- Rewriting
-- ---------------------------------------------------------------------------

/-- The nodes that spelled `f` spell `f'` from `cursor` on, perhaps with new ones. No other node has
changed. -/
structure Rewrites (f : Forest α) (arena arena' : Arena α) (cursor : Option Nat)
    (f' : Forest α) : Prop where
  spells : Spells arena' cursor f'
  size_le : arena.size ≤ arena'.size
  same : ∀ n < arena.size, n ∉ f.serials → arena'[n]? = arena[n]?

namespace Rewrites

variable {m id : Nat} {sibling child : Option Nat} {slots : List (Slot α)} {pivot : Slot α}
  {live : Bool} {children children' rest rest' : Forest α}

theorem refl (h : Spells arena cursor f) : Rewrites f arena arena cursor f :=
  ⟨h, Nat.le_refl _, fun _ _ _ => rfl⟩

/-- Two changes in a row to the same nodes. -/
theorem trans {cursor' : Option Nat} (h : Rewrites f arena arena' cursor f')
    (hSerials : f'.serials = f.serials) (h' : Rewrites f' arena' arena'' cursor' f'') :
    Rewrites f arena arena'' cursor' f'' where
  spells := h'.spells
  size_le := Nat.le_trans h.size_le h'.size_le
  same n hn hElsewhere := by
    rw [h'.same n (Nat.lt_of_lt_of_le hn h.size_le) (hSerials ▸ hElsewhere), h.same n hn hElsewhere]

/-- What has no node in common with the part that changes is as before. -/
theorem frame {g : Forest α} {cursor' : Option Nat} (h : Rewrites f arena arena' cursor f')
    (hOther : Spells arena cursor' g) (hApart : ∀ n ∈ g.serials, n ∉ f.serials) :
    Spells arena' cursor' g :=
  hOther.congr fun n hn => h.same n (hOther.lt_size n hn) (hApart n hn)

/-- A change to the content of the first bucket. -/
theorem bucket (hNode : arena[id]? = some ⟨m, sibling, .leaf slots⟩)
    (hRest : Spells arena sibling rest) (hApart : id ∉ rest.serials) (slots' : List (Slot α)) :
    Rewrites (.leaf m id slots rest) arena
      (arena.setIfInBounds id ⟨m, sibling, .leaf slots'⟩) (some id) (.leaf m id slots' rest) where
  spells := .leaf (getElem?_write_self hNode _) (hRest.write hApart _)
  size_le := by simp
  same n _ hElsewhere := by
    simp only [Forest.serials, List.mem_cons, not_or] at hElsewhere
    exact getElem?_write_ne (Ne.symm hElsewhere.1) _

/-- A change to whether the first pivot is live. -/
theorem setLive (hNode : arena[id]? = some ⟨m, sibling, .branch pivot live child⟩)
    (hChildren : Spells arena child children) (hRest : Spells arena sibling rest)
    (hApart : Forest.Separate id children rest) (live' : Bool) :
    Rewrites (.branch m id pivot live children rest) arena
      (arena.setIfInBounds id ⟨m, sibling, .branch pivot live' child⟩) (some id)
      (.branch m id pivot live' children rest) where
  spells := .branch (getElem?_write_self hNode _) (hChildren.write hApart.not_below _)
    (hRest.write hApart.not_behind _)
  size_le := by simp
  same n _ hElsewhere := by
    simp only [Forest.serials, List.mem_cons, not_or] at hElsewhere
    exact getElem?_write_ne (Ne.symm hElsewhere.1) _

/-- A change behind the first bucket. -/
theorem behindLeaf (h : Rewrites rest arena arena' sibling rest')
    (hNode : arena[id]? = some ⟨m, sibling, .leaf slots⟩) (hApart : id ∉ rest.serials) :
    Rewrites (.leaf m id slots rest) arena arena' (some id) (.leaf m id slots rest') where
  spells := .leaf ((h.same id (lt_of_getElem? hNode) hApart).trans hNode) h.spells
  size_le := h.size_le
  same n hn hElsewhere := h.same n hn fun hMem => hElsewhere (List.mem_cons_of_mem _ hMem)

/-- A change behind the first branch. -/
theorem behindBranch (h : Rewrites rest arena arena' sibling rest')
    (hNode : arena[id]? = some ⟨m, sibling, .branch pivot live child⟩)
    (hChildren : Spells arena child children) (hApart : Forest.Separate id children rest) :
    Rewrites (.branch m id pivot live children rest) arena arena' (some id)
      (.branch m id pivot live children rest') where
  spells := .branch ((h.same id (lt_of_getElem? hNode) hApart.not_behind).trans hNode)
    (h.frame hChildren hApart.apart) h.spells
  size_le := h.size_le
  same n hn hElsewhere := h.same n hn fun hMem =>
    hElsewhere (List.mem_cons_of_mem _ (List.mem_append_right _ hMem))

/-- A change below the first branch. -/
theorem below (h : Rewrites children arena arena' child children')
    (hNode : arena[id]? = some ⟨m, sibling, .branch pivot live child⟩)
    (hRest : Spells arena sibling rest) (hApart : Forest.Separate id children rest) :
    Rewrites (.branch m id pivot live children rest) arena arena' (some id)
      (.branch m id pivot live children' rest) where
  spells := .branch ((h.same id (lt_of_getElem? hNode) hApart.not_below).trans hNode) h.spells
    (h.frame hRest fun n hn hMem => hApart.apart n hMem hn)
  size_le := h.size_le
  same n hn hElsewhere := h.same n hn fun hMem =>
    hElsewhere (List.mem_cons_of_mem _ (List.mem_append_left _ hMem))

/-- Three changes in a row: to the first pivot, to what is below its branch, and to what is behind
it. -/
theorem inTurn {live' : Bool} (hNode : arena[id]? = some ⟨m, sibling, .branch pivot live child⟩)
    (hChildren : Spells arena child children) (hRest : Spells arena sibling rest)
    (hApart : Forest.Separate id children rest)
    (hBelow : Rewrites children (arena.setIfInBounds id ⟨m, sibling, .branch pivot live' child⟩)
      arena' child children')
    (hSerials : children'.serials = children.serials)
    (hBehind : Rewrites rest arena' arena'' sibling rest') :
    Rewrites (.branch m id pivot live children rest) arena arena'' (some id)
      (.branch m id pivot live' children' rest') := by
  have hNode' := getElem?_write_self hNode ⟨m, sibling, .branch pivot live' child⟩
  have hRest' := hRest.write hApart.not_behind ⟨m, sibling, .branch pivot live' child⟩
  have hPart := (setLive hNode hChildren hRest hApart live').trans rfl
    (hBelow.below hNode' hRest' hApart)
  have hNodeBelow := (hBelow.same id (lt_of_getElem? hNode') hApart.not_below).trans hNode'
  refine hPart.trans ?_
    (hBehind.behindBranch hNodeBelow hBelow.spells (hApart.congr hSerials))
  rw [Forest.serials, Forest.serials, hSerials]

end Rewrites

end Arena

end SwapSearch.Pareto
