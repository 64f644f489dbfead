import Mathlib.Algebra.Ring.Nat
import Mathlib.Order.Defs.Unbundled
import SwapSearch.Proofs.Pareto.Roster

/-!
# SwapSearch — what pruning leaves out

An archive searches its tree for covers and for victims of a point. Both searches leave out
the subtrees whose region fails a test on 64-bit masks: a cover needs a subset of the point's
region, a victim a superset. Here the masks are put together bit by bit, the tests are read
as inclusions of sets of components, and the subtrees left out are shown to hold nothing the
search is after.

Below a branch regions are relative to its pivot, whether or not the pivot is still live.
So what is left out is found by recursion along the searches, and includes pivots that are
gone.

## Results

* `regionWord_eq`                 — no bit of a region is shifted out of the word.
* `isSubregion_iff_and_not`       — the test on words is inclusion.
* `IsPoint.weaklyDominates_iff_dominance`, `isStrictOrder_dominates` — the comparisons agree.
* `Forest.isSome_cover_pruned`, `Forest.evict_pruned` — the searches do not see what they leave out.
* `safelyPruned_of_arranged`, `regions_prune` — what they leave out is nothing they are after.
-/

namespace SwapSearch.Pareto

variable {α : Type} [Scalar α] {d : Nat}

-- ---------------------------------------------------------------------------
-- Masks
-- ---------------------------------------------------------------------------

theorem region_lt (r p : List α) : region r p < 2 ^ r.length := by
  induction r generalizing p with
  | nil => simp [region]
  | cons x r ih =>
    cases p with
    | nil => exact Nat.two_pow_pos _
    | cons y p =>
      have hRest := ih p
      rw [region, List.length_cons, Nat.pow_succ]
      split <;> omega

/-- A component adds its bit in front of those of a mask that has none there yet. -/
theorem markComponent_eq {x y : α} {k mask : Nat} (hRoom : k < 64) (hMask : mask < 2 ^ k) :
    markComponent mask ((y, x), k) = .ok (2 ^ k * (if y ≤ x then 1 else 0) + mask) := by
  by_cases h : y ≤ x
  · have hOr : mask ||| 1 <<< k = 2 ^ k * 1 + mask := by
      rw [Nat.two_pow_add_eq_or_of_lt hMask 1, Nat.mul_one, Nat.one_shiftLeft, Nat.or_comm]
    simp only [markComponent, Word.bit, if_pos h, if_pos hRoom, ← hOr]
    rfl
  · simp only [markComponent, if_neg h]
    simp

/-- The bits of the later components are put in front of those that are there. -/
theorem foldlM_markComponent (r p : List α) {k mask : Nat} (hRoom : k + r.length ≤ 64)
    (hMask : mask < 2 ^ k) :
    ((p.zip r).zipIdx k).foldlM markComponent mask = .ok (2 ^ k * region r p + mask) := by
  -- on the components that are left, with the bits of the earlier ones as the mask
  induction r generalizing p k mask with
  | nil => simp [region, pure, Except.pure]
  | cons x r ih =>
    cases p with
    | nil => simp [region, pure, Except.pure]
    | cons y p =>
      rw [List.length_cons] at hRoom
      have hBit : (if y ≤ x then 1 else 0) ≤ 1 := by split <;> omega
      rw [List.zip_cons_cons, List.zipIdx_cons, List.foldlM_cons,
        markComponent_eq (by omega) hMask, region]
      generalize (if y ≤ x then 1 else 0) = bit at hBit ⊢
      -- the mask stays below the next bit, so no bit is shifted out
      have hMarked : 2 ^ k * bit + mask < 2 ^ (k + 1) := by
        have hSmall : 2 ^ k * bit ≤ 2 ^ k * 1 := Nat.mul_le_mul_left _ hBit
        omega
      refine (ih p (by omega) hMarked).trans (congrArg _ ?_)
      rw [Nat.pow_succ, Nat.mul_add, Nat.mul_assoc]
      omega

/-- **No bit is shifted out** when the region of up to 64 components is put together. -/
theorem regionWord_eq {r : List α} (hRoom : r.length ≤ 64) (p : List α) :
    regionWord r p = .ok (region r p) := by
  refine (foldlM_markComponent r p (by omega) (by simp)).trans (congrArg _ ?_)
  omega

/-- The bits of one word that are not in another. -/
theorem testBit_and_not {m q : Nat} (hm : m < Word.size) (hq : q < Word.size) (k : Nat) :
    (UInt64.ofNat m &&& ~~~UInt64.ofNat q).toNat.testBit k = (m.testBit k && !q.testBit k) := by
  have hComplement : UInt64.size - 1 - q = 2 ^ 64 - (q + 1) := by
    show 2 ^ 64 - 1 - q = 2 ^ 64 - (q + 1)
    omega
  rw [UInt64.toNat_and, UInt64.toNat_not, UInt64.toNat_ofNat_of_lt' hm,
    UInt64.toNat_ofNat_of_lt' hq, hComplement, Nat.testBit_and, Nat.testBit_two_pow_sub_succ hq]
  by_cases hk : k < 64
  · simp [hk]
  · have hPow : 2 ^ 64 ≤ 2 ^ k := Nat.pow_le_pow_right (by decide) (by omega)
    have hHigh : m.testBit k = false := Nat.testBit_lt_two_pow (Nat.lt_of_lt_of_le hm hPow)
    simp [hHigh]

/-- On words, no bit of `m` is left when those of `q` are cleared if and only if `m` is a subset. -/
theorem isSubregion_iff_and_not {m q : Nat} (hm : m < Word.size) (hq : q < Word.size) :
    isSubregion m q = true ↔ UInt64.ofNat m &&& ~~~UInt64.ofNat q = 0 := by
  rw [← UInt64.toNat_inj, UInt64.toNat_zero, isSubregion_iff]
  constructor
  · intro h
    apply Nat.eq_of_testBit_eq
    intro k
    rw [testBit_and_not hm hq, Nat.zero_testBit]
    cases hk : m.testBit k with
    | false => rfl
    | true => rw [h k hk]; rfl
  · intro h k hk
    have hNone := testBit_and_not hm hq k
    rw [h, Nat.zero_testBit, hk] at hNone
    simpa using hNone

-- ---------------------------------------------------------------------------
-- Comparisons
-- ---------------------------------------------------------------------------

section Order

variable [OrderedScalar α] {x y : List α}

theorem IsPoint.weaklyDominates_iff_dominance (hx : IsPoint d x) (hy : IsPoint d y) :
    weaklyDominates x y = true ↔ dominance x y = .left ∨ dominance x y = .equal := by
  unfold dominance
  rw [hx.betterSomewhere_eq hy, hy.betterSomewhere_eq hx]
  cases weaklyDominates x y <;> cases weaklyDominates y x <;> decide

/-- Dominance is a strict partial order of points. -/
theorem isStrictOrder_dominates (d : Nat) :
    IsStrictOrder {v : List α // IsPoint d v} fun x y => dominates x.1 y.1 = true where
  irrefl := by
    rintro ⟨x, hx⟩ h
    obtain ⟨hForth, hNotBack⟩ := (hx.dominates_iff hx).mp h
    exact absurd (hForth.symm.trans hNotBack) (by decide)
  trans := by
    rintro ⟨x, hx⟩ ⟨y, hy⟩ ⟨z, hz⟩ hxy hyz
    obtain ⟨hxy, hNot⟩ := (hx.dominates_iff hy).mp hxy
    obtain ⟨hyz, -⟩ := (hy.dominates_iff hz).mp hyz
    refine (hx.dominates_iff hz).mpr ⟨hx.weaklyDominates_trans hy hxy hyz, ?_⟩
    rw [← Bool.not_eq_true] at hNot ⊢
    exact fun hzx => hNot (hy.weaklyDominates_trans hz hyz hzx)

end Order

-- ---------------------------------------------------------------------------
-- What a search leaves out
-- ---------------------------------------------------------------------------

namespace Forest

/-- The part of a forest that a search for the point, whose region here is `q`, looks at. The search
goes into the trees whose region passes the test. -/
def pruned (visits : Nat → Nat → Bool) (point : List α) (q : Nat) : Forest α → Forest α
  | nil => nil
  | leaf m n slots rest =>
    leaf m n (if visits m q then slots else []) (pruned visits point q rest)
  | branch m n pivot live children rest =>
    if visits m q then
      branch m n pivot live (pruned visits point (region pivot.vector point) children)
        (pruned visits point q rest)
    else leaf m n [] (pruned visits point q rest)

/-- The vectors of the slots and pivots, live or not, that the search leaves out. -/
def skipped (visits : Nat → Nat → Bool) (point : List α) (q : Nat) : Forest α → List (List α)
  | nil => []
  | leaf m _ slots rest =>
    (if visits m q then [] else slots.map (·.vector)) ++ skipped visits point q rest
  | branch m _ pivot _ children rest =>
    (if visits m q then skipped visits point (region pivot.vector point) children
      else pivot.vector :: children.vectors) ++ skipped visits point q rest

section

variable {visits : Nat → Nat → Bool} {point : List α} {q : Nat}

/-- A vector is looked at or left out. -/
theorem vectors_perm (visits : Nat → Nat → Bool) (point : List α) (q : Nat) (f : Forest α) :
    f.vectors.Perm ((f.pruned visits point q).vectors ++ f.skipped visits point q) := by
  induction f generalizing q with
  | nil => exact List.Perm.refl _
  | leaf m n slots rest ih =>
    have hRest := ih q
    rw [pruned, vectors, vectors, skipped]
    split
    · simpa using hRest.append_left (slots.map (·.vector))
    · exact (hRest.append_left _).trans (List.perm_append_comm_assoc ..)
  | branch m n pivot live children rest ihChildren ihRest =>
    have hChildren := ihChildren (region pivot.vector point)
    have hRest := ihRest q
    rw [pruned, vectors, skipped]
    split
    · refine List.Perm.cons _ ((hChildren.append hRest).trans ?_)
      show List.Perm _ ((_ ++ _) ++ (_ ++ _))
      rw [List.append_assoc, List.append_assoc]
      exact (List.perm_append_comm_assoc ..).append_left _
    · exact (hRest.append_left (pivot.vector :: children.vectors)).trans
        (List.perm_append_comm_assoc ..)

/-- A search for a cover does not see what it leaves out. -/
theorem isSome_cover_pruned (q : Nat) (point : List α) (f : Forest α) :
    (cover q point (f.pruned isSubregion point q)).isSome = (cover q point f).isSome := by
  induction f generalizing q with
  | nil => rfl
  | leaf m n slots rest ih =>
    have hRest := ih q
    by_cases h : isSubregion m q = true
    · simp only [pruned, cover, if_pos h]
      cases coverSlots point slots with
      | none => simpa using hRest
      | some slots => rfl
    · simpa [pruned, cover, h] using hRest
  | branch m n pivot live children rest ihChildren ihRest =>
    have hRest := ihRest q
    by_cases h : isSubregion m q = true
    · have hChildren := ihChildren (region pivot.vector point)
      simp only [pruned, cover, if_pos h]
      split
      · rfl
      · -- the answer is decided below, or by the siblings
        cases hBelow : cover (region pivot.vector point) point children with
        | none =>
          rw [hBelow, Option.isSome_none, Option.isSome_eq_false_iff, Option.isNone_iff_eq_none]
            at hChildren
          rw [hChildren]
          simpa using hRest
        | some children' =>
          rw [hBelow, Option.isSome_some] at hChildren
          obtain ⟨pruned', hPruned⟩ := Option.isSome_iff_exists.mp hChildren
          rw [hPruned]
          rfl
    · simpa [pruned, cover, h] using hRest

/-- A search for victims does not see what it leaves out. -/
theorem evict_pruned (q : Nat) (point : List α) (own : Bool) (f : Forest α) (e : Eviction α) :
    (evict q point own (f.pruned (flip isSubregion) point q) e).2 = (evict q point own f e).2 := by
  induction f generalizing q own e with
  | nil => rfl
  | leaf m n slots rest ih =>
    -- a bucket that is not visited answers like an empty one
    have hBucket : (evictBucket q m point own (if flip isSubregion m q then slots else []) e).2 =
        (evictBucket q m point own slots e).2 := by
      unfold flip evictBucket
      split <;> rfl
    rw [pruned, evict_leaf, evict_leaf, hBucket]
    exact ih q own _
  | branch m n pivot live children rest ihChildren ihRest =>
    rw [pruned]
    by_cases h : isSubregion q m = true
    · rw [if_pos (show flip isSubregion m q = true from h), evict_branch_inside h,
        evict_branch_inside h]
      dsimp only
      rw [ihChildren, ihRest]
    · have hBucket : evictBucket q m point own [] e = ([], e) := if_neg h
      rw [if_neg (show ¬ flip isSubregion m q = true from h), evict_leaf, evict_branch_outside h,
        hBucket]
      exact ihRest q own e

/-- What the test tells about the vectors of a region holds of all that is left out. -/
theorem forall_mem_skipped [OrderedScalar α] {P : List α → Prop} {key : List α → Nat}
    {f : Forest α}
    (hTest : ∀ key, IsRegionKey d key → ∀ v, IsPoint d v →
      ¬ visits (key v) (key point) = true → P v)
    (hKey : IsRegionKey d key) (hArranged : Arranged key f)
    (hPoints : ∀ v ∈ f.vectors, IsPoint d v) :
    ∀ v ∈ f.skipped visits point (key point), P v := by
  -- below a branch the key is that of its pivot, for which the test holds as well
  induction f generalizing key with
  | nil => simp [skipped]
  | leaf m n slots rest ih =>
    obtain ⟨hSlots, -, hRest⟩ := hArranged
    obtain ⟨hPointsHere, hPointsRest⟩ := List.forall_mem_append.mp hPoints
    rw [skipped]
    refine List.forall_mem_append.mpr ⟨?_, ih hKey hRest hPointsRest⟩
    split
    · exact nofun
    · next hSkip =>
      intro v hv
      obtain ⟨s, hs, rfl⟩ := List.mem_map.mp hv
      exact hTest key hKey _ (hPointsHere _ hv) (hSlots s hs ▸ hSkip)
  | branch m n pivot live children rest ihChildren ihRest =>
    obtain ⟨⟨hPivot, hBelow⟩, hChildren, -, hRest⟩ := hArranged
    obtain ⟨hPointsHere, hPointsRest⟩ :=
      List.forall_mem_append.mp (show ∀ v ∈ (pivot.vector :: children.vectors) ++ rest.vectors,
        IsPoint d v from hPoints)
    rw [skipped]
    refine List.forall_mem_append.mpr ⟨?_, ihRest hKey hRest hPointsRest⟩
    split
    · exact ihChildren (isRegionKey_region d _) hChildren
        fun v hv => hPointsHere v (List.mem_cons_of_mem _ hv)
    · next hSkip =>
      have hRegion : ∀ v ∈ pivot.vector :: children.vectors, key v = m :=
        List.forall_mem_cons.mpr ⟨hPivot, hBelow⟩
      intro v hv
      exact hTest key hKey v (hPointsHere v hv) (hRegion v hv ▸ hSkip)

end

end Forest

-- ---------------------------------------------------------------------------
-- Archives
-- ---------------------------------------------------------------------------

section Prunes

variable [OrderedScalar α] {p x y : List α}

omit [OrderedScalar α] in
/-- The bits of a region are among the components. -/
theorem testBit_region_iff (hp : IsPoint d p) (k : Nat) :
    (region p x).testBit k = true ↔
      k < d ∧ ∃ u v, x[k]? = some u ∧ p[k]? = some v ∧ u ≤ v := by
  rw [testBit_region]
  constructor
  · rintro ⟨v, u, hv, hu, hLe⟩
    exact ⟨hp.1 ▸ (List.getElem?_eq_some_iff.mp hv).1, u, v, hu, hv, hLe⟩
  · rintro ⟨-, u, v, hu, hv, hLe⟩
    exact ⟨v, u, hv, hu, hLe⟩

omit [OrderedScalar α] in
/-- A region of up to 64 components is a word. -/
theorem IsPoint.region_lt_size (hp : IsPoint d p) (hDimensions : d ≤ 64) (x : List α) :
    region p x < Word.size :=
  calc region p x < 2 ^ p.length := region_lt p x
    _ ≤ 2 ^ 64 := Nat.pow_le_pow_right (by decide) (hp.1 ▸ hDimensions)

/-- Pruning is safe for a point in a forest with one tree at the top. -/
structure SafelyPruned (point : List α) (f : Forest α) : Prop where
  /-- A vector is looked at or left out. -/
  parts : ∀ visits,
    f.vectors.Perm ((f.pruned visits point 0).vectors ++ f.skipped visits point 0)
  /-- The search for a cover depends on nothing that it leaves out. -/
  cover : ((f.pruned isSubregion point 0).cover 0 point).isSome = (f.cover 0 point).isSome
  uncovering : ∀ v ∈ f.skipped isSubregion point 0, weaklyDominates v point = false
  /-- Nor does the search for victims. -/
  evict : ∀ own e,
    ((f.pruned (flip isSubregion) point 0).evict 0 point own e).2 = (f.evict 0 point own e).2
  undominated : ∀ v ∈ f.skipped (flip isSubregion) point 0, dominates point v = false

/-- Pruning is safe where every vector lies in the region of its tree. -/
theorem safelyPruned_of_arranged {f : Forest α} (hArranged : f.Arranged fun _ => 0)
    (hPoints : ∀ v ∈ f.vectors, IsPoint d v) (hx : IsPoint d x) : SafelyPruned x f where
  parts visits := f.vectors_perm visits x 0
  cover := f.isSome_cover_pruned 0 x
  uncovering := Forest.forall_mem_skipped
    (fun _ hKey _ hv hSkip => Forest.not_covered_of_not_isSubregion hKey hv hx rfl rfl hSkip)
    (isRegionKey_const d 0) hArranged hPoints
  evict own e := Forest.evict_pruned 0 x own f e
  undominated := Forest.forall_mem_skipped
    (fun _ hKey _ hv hSkip => Forest.not_dominated_of_not_isSubregion hKey hv hx rfl rfl hSkip)
    (isRegionKey_const d 0) hArranged hPoints

/-- **Pruning by regions.** For up to 64 components a region is a word whose bits are the components
in which the point is no better than the reference. Better points have regions that are subsets,
which the test on words recognises; weak dominance is what the comparison says it is, and dominance
is a strict partial order. So whatever has been offered to an archive, its searches leave out
nothing they are after. -/
theorem regions_prune (hDimensions : d ≤ 64) (hp : IsPoint d p) (hx : IsPoint d x)
    (hy : IsPoint d y) :
    (regionWord p x = .ok (region p x) ∧ region p x < Word.size ∧
      ∀ k, (region p x).testBit k = true ↔
        k < d ∧ ∃ u v, x[k]? = some u ∧ p[k]? = some v ∧ u ≤ v) ∧
    (weaklyDominates x y = true →
      UInt64.ofNat (region p x) &&& ~~~UInt64.ofNat (region p y) = 0) ∧
    (∀ m q, m < Word.size → q < Word.size →
      (isSubregion m q = true ↔ UInt64.ofNat m &&& ~~~UInt64.ofNat q = 0)) ∧
    (weaklyDominates x y = true ↔ dominance x y = .left ∨ dominance x y = .equal) ∧
    (IsStrictOrder {v : List α // IsPoint d v} fun a b => dominates a.1 b.1 = true) ∧
    ∀ capacity, 1 ≤ d → 1 ≤ capacity →
      ∃ empty : Archive α, Archive.empty d capacity = .ok empty ∧
        ∀ (offers : List (Entry α)) (solution : Permutation),
          SafelyPruned x ((empty.run offers).2.vacated solution).forest := by
  have hWord := hp.region_lt_size hDimensions x
  have hWord' := hp.region_lt_size hDimensions y
  refine ⟨⟨regionWord_eq (hp.1 ▸ hDimensions) x, hWord, testBit_region_iff hp⟩, fun h => ?_,
    fun m q => isSubregion_iff_and_not, hx.weaklyDominates_iff_dominance hy,
    isStrictOrder_dominates d, fun capacity hSome hCapacity => ?_⟩
  · exact (isSubregion_iff_and_not hWord hWord').mp (isSubregion_region hx hy h)
  · obtain ⟨empty, hEmpty, hStart⟩ := exists_empty (α := α) ⟨hSome, hDimensions⟩ hCapacity
    refine ⟨empty, hEmpty, fun offers solution => ?_⟩
    obtain ⟨roster, hVacated⟩ := (represents_run hStart offers).2.vacated solution
    exact safelyPruned_of_arranged hVacated.arranged hVacated.points hx

end Prunes

/-- A point that equals the reference in the last of 64 components and is better in the others. -/
theorem regions_prune_last_bit :
    let p : List Float := List.replicate 64 0
    let x : List Float := List.replicate 63 1 ++ [0]
    64 ≤ 64 ∧ IsPoint 64 p ∧ IsPoint 64 x ∧ weaklyDominates x p = true ∧
      region p x = 2 ^ 63 ∧ regionWord p x = .ok (2 ^ 63) ∧
      UInt64.ofNat (region p x) &&& ~~~UInt64.ofNat (region p p) = 0 ∧
      ∃ empty : Archive Float, Archive.empty 64 20 = .ok empty ∧
        ∀ (offers : List (Entry Float)) (solution : Permutation),
          SafelyPruned x ((empty.run offers).2.vacated solution).forest := by
  intro p x
  have hp : IsPoint 64 p := by decide +kernel
  have hx : IsPoint 64 x := by decide +kernel
  have hBetter : weaklyDominates x p = true := by decide +kernel
  have hRegion : region p x = 2 ^ 63 := by decide +kernel
  obtain ⟨⟨hWord, -⟩, hSubset, -, -, -, hArchive⟩ := regions_prune (by decide) hp hx hp
  exact ⟨by decide, hp, hx, hBetter, hRegion, hRegion ▸ hWord, hSubset hBetter,
    hArchive 20 (by decide) (by decide)⟩

end SwapSearch.Pareto
