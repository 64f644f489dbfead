import Mathlib.Data.Set.Function
import SwapSearch.Population.Tournament
import SwapSearch.Proofs.Random.Draws
import SwapSearch.Proofs.Scalar.Order

/-!
# SwapSearch — tournaments

A tournament draws from a pool of indices that leaves out the winner of the one before. The
draws stand for the other indices, each for one of them, so none is preferred and none is
left out. As long as the pool is not empty somebody enters the tournament, and the winner is
one of the entrants: the earliest of those with the highest fitness, if all values of fitness
are numbers. Two members are enough for two different parents.

## Results

* `bijOn_contender`  — the draws stand for the indices that are not excluded, one for one.
* `winner_eq`        — the entrants challenge the first of them one by one.
* `firstBest_foldl`  — what comes of it is the earliest of the fittest.
* `parents_succeeds` — two members have two parents.
-/

namespace SwapSearch

namespace Tournament

variable {size draw e : Nat} {excluded : Option Nat}

-- ---------------------------------------------------------------------------
-- Draws and contenders
-- ---------------------------------------------------------------------------

theorem poolSize_some (he : e < size) : poolSize size (some e) = size - 1 :=
  if_pos (by simpa using he)

/-- **The draws stand for the indices that are not excluded**, one for one. -/
theorem bijOn_contender (he : e < size) :
    Set.BijOn (contender (some e)) {draw | draw < size - 1} {i | i < size ∧ i ≠ e} := by
  refine ⟨fun draw hDraw => ?_, fun a _ b _ hSame => ?_, fun i hi => ?_⟩
  · have hBelow : draw < size - 1 := hDraw
    show contender (some e) draw < size ∧ contender (some e) draw ≠ e
    unfold contender
    dsimp only
    split <;> omega
  · unfold contender at hSame
    dsimp only at hSame
    split at hSame <;> split at hSame <;> omega
  · obtain ⟨hLess, hOther⟩ := hi
    -- an index below the excluded one is its own draw, one above is drawn one lower
    rcases Nat.lt_or_gt_of_ne hOther with hBelow | hAbove
    · have hStays : ¬ e ≤ i := Nat.not_le.mpr hBelow
      exact ⟨i, show i < size - 1 by omega, if_neg hStays⟩
    · have hMoves : e ≤ i - 1 := Nat.le_sub_one_of_lt hAbove
      refine ⟨i - 1, show i - 1 < size - 1 by omega, (if_pos hMoves).trans ?_⟩
      exact Nat.sub_add_cancel (Nat.one_le_of_lt hAbove)

/-- A draw from the pool stands for an index. -/
theorem contender_lt (hExcluded : ∀ e ∈ excluded, e < size)
    (h : draw < poolSize size excluded) : contender excluded draw < size := by
  cases excluded with
  | none => exact h
  | some e =>
    have he := hExcluded e rfl
    rw [poolSize_some he] at h
    exact ((bijOn_contender he).mapsTo h).1

section Entrants

variable {ρ : Type} [RandomSource ρ] {pool count i : Nat} {r : ρ}

/-- The contenders that `count` draws stand for, in the order of the draws. -/
def entrants (pool : Nat) (excluded : Option Nat) : (count : Nat) → ρ → List Nat × ρ
  | 0, r => ([], r)
  | count + 1, r =>
    let (draw, r) := Random.below pool r
    let (rest, r) := entrants pool excluded count r
    (contender excluded draw :: rest, r)

theorem length_entrants (pool : Nat) (excluded : Option Nat) (count : Nat) (r : ρ) :
    (entrants pool excluded count r).1.length = count := by
  induction count generalizing r with
  | zero => rfl
  | succ count ih => exact congrArg Nat.succ (ih _)

/-- Whoever enters stands for a draw from the pool. -/
theorem exists_of_mem_entrants (hPool : 0 < pool) (h : i ∈ (entrants pool excluded count r).1) :
    ∃ draw < pool, contender excluded draw = i := by
  induction count generalizing r with
  | zero => exact nomatch h
  | succ count ih =>
    rcases List.mem_cons.mp h with rfl | hLater
    · exact ⟨_, Random.below_lt hPool r, rfl⟩
    · exact ih hLater

/-- Only indices enter. -/
theorem lt_of_mem_entrants (hExcluded : ∀ e ∈ excluded, e < size)
    (hPool : 0 < poolSize size excluded)
    (h : i ∈ (entrants (poolSize size excluded) excluded count r).1) : i < size := by
  obtain ⟨draw, hDraw, rfl⟩ := exists_of_mem_entrants hPool h
  exact contender_lt hExcluded hDraw

/-- The excluded index does not enter. -/
theorem ne_of_mem_entrants (he : e < size) (hPool : 0 < size - 1)
    (h : i ∈ (entrants (size - 1) (some e) count r).1) : i ≠ e := by
  obtain ⟨draw, hDraw, rfl⟩ := exists_of_mem_entrants hPool h
  exact ((bijOn_contender he).mapsTo hDraw).2

-- ---------------------------------------------------------------------------
-- Winners
-- ---------------------------------------------------------------------------

variable {α : Type} [Graded α]

/-- Who leads after a challenge. -/
def ahead (fitness : Array α) (leader rival : Nat) : Nat :=
  if isFitter fitness leader rival then rival else leader

theorem ahead_cases (fitness : Array α) (leader rival : Nat) :
    ahead fitness leader rival = leader ∨ ahead fitness leader rival = rival := by
  unfold ahead
  split
  · exact Or.inr rfl
  · exact Or.inl rfl

theorem challenge_eq (fitness : Array α) (pool : Nat) (excluded : Option Nat)
    (rounds leader : Nat) (r : ρ) :
    challenge fitness pool excluded rounds leader r =
      ((entrants pool excluded rounds r).1.foldl (ahead fitness) leader,
        (entrants pool excluded rounds r).2) := by
  induction rounds generalizing leader r with
  | zero => rfl
  | succ rounds ih => exact ih _ _

/-- **The entrants challenge** the first of them, one by one. There is at least one. -/
theorem winner_eq {fitness : Array α} (hPool : 0 < poolSize fitness.size excluded)
    (rounds : Nat) (r : ρ) :
    ∃ first rest after,
      entrants (poolSize fitness.size excluded) excluded (max rounds 1) r = (first :: rest, after) ∧
      winner fitness rounds excluded r = .ok (rest.foldl (ahead fitness) first, after) := by
  have hRounds : max rounds 1 = rounds - 1 + 1 := by omega
  rw [hRounds]
  refine ⟨contender excluded (Random.below (poolSize fitness.size excluded) r).1,
    (entrants _ excluded (rounds - 1) (Random.below (poolSize fitness.size excluded) r).2).1,
    (entrants _ excluded (rounds - 1) (Random.below (poolSize fitness.size excluded) r).2).2,
    rfl, ?_⟩
  unfold winner
  dsimp only
  rw [if_neg (Nat.pos_iff_ne_zero.mp hPool), challenge_eq]

theorem foldl_ahead_mem (fitness : Array α) (first : Nat) (rest : List Nat) :
    rest.foldl (ahead fitness) first ∈ first :: rest := by
  induction rest generalizing first with
  | nil => exact List.mem_cons_self
  | cons rival rest ih =>
    rw [List.foldl_cons]
    have hLater := ih (ahead fitness first rival)
    rcases ahead_cases fitness first rival with hLeads | hLeads
    · rw [hLeads] at hLater ⊢
      rcases List.mem_cons.mp hLater with hFirst | hRest
      · exact List.mem_cons.mpr (Or.inl hFirst)
      · exact List.mem_cons_of_mem _ (List.mem_cons_of_mem _ hRest)
    · rw [hLeads] at hLater ⊢
      exact List.mem_cons_of_mem _ hLater

/-- A pool that is not empty has a winner, one of the entrants. -/
theorem winner_succeeds {fitness : Array α} (hPool : 0 < poolSize fitness.size excluded)
    (rounds : Nat) (r : ρ) :
    ∃ i, winner fitness rounds excluded r = .ok (i,
        (entrants (poolSize fitness.size excluded) excluded (max rounds 1) r).2) ∧
      i ∈ (entrants (poolSize fitness.size excluded) excluded (max rounds 1) r).1 := by
  obtain ⟨first, rest, after, hEntrants, hWinner⟩ := winner_eq hPool rounds r
  rw [hEntrants]
  exact ⟨_, hWinner, foldl_ahead_mem fitness first rest⟩

/-- **Two members have two parents**, which are different. -/
theorem parents_succeeds {fitness : Array α} (hTwo : 2 ≤ fitness.size) (rounds : Nat) (r : ρ) :
    ∃ i j r', parents fitness rounds r = .ok ((i, j), r') ∧
      i < fitness.size ∧ j < fitness.size ∧ i ≠ j := by
  have hWhole : 0 < poolSize fitness.size none := Nat.lt_of_lt_of_le Nat.zero_lt_two hTwo
  obtain ⟨i, hFirst, hEnters⟩ := winner_succeeds hWhole rounds r
  have hNone : ∀ e ∈ (none : Option Nat), e < fitness.size := nofun
  have hi := lt_of_mem_entrants hNone hWhole hEnters
  have hOthers : 0 < fitness.size - 1 := by omega
  -- the second pool is smaller by the first winner, and one member is left at least
  have hPool : 0 < poolSize fitness.size (some i) := hOthers.trans_eq (poolSize_some hi).symm
  generalize (entrants (poolSize fitness.size none) none (max rounds 1) r).2 = between at hFirst
  obtain ⟨j, hSecond, hOther⟩ := winner_succeeds hPool rounds between
  have hj := lt_of_mem_entrants (fun e he => (Option.some.inj he) ▸ hi) hPool hOther
  rw [poolSize_some hi] at hSecond hOther
  refine ⟨i, j, (entrants (fitness.size - 1) (some i) (max rounds 1) between).2, ?_, hi, hj,
    (ne_of_mem_entrants hi hOthers hOther).symm⟩
  unfold parents
  rw [if_neg (Nat.not_lt.mpr hTwo), hFirst]
  show (winner fitness rounds (some i) _ >>= _) = _
  rw [hSecond]
  rfl

end Entrants

-- ---------------------------------------------------------------------------
-- The fittest
-- ---------------------------------------------------------------------------

section Fittest

open OrderedScalar

variable {α : Type} [Scalar α] {fitness : Array α} {drawn rest : List Nat}
  {first i j leader rival : Nat} {x y : α}

/-- The earliest of the fittest: who was drawn before is less fit, and who was drawn later is no
fitter. -/
def FirstBest (fitness : Array α) (drawn : List Nat) (i : Nat) : Prop :=
  ∃ before after value, drawn = before ++ i :: after ∧ fitness[i]? = some value ∧
    (∀ j ∈ before, ∃ x, fitness[j]? = some x ∧ x < value) ∧
    ∀ j ∈ after, ∃ x, fitness[j]? = some x ∧ x ≤ value

theorem ahead_eq (hx : fitness[leader]? = some x) (hy : fitness[rival]? = some y) :
    ahead fitness leader rival = if x < y then rival else leader := by
  unfold ahead isFitter
  rw [hx, hy]
  simp only [decide_eq_true_eq]

variable [OrderedScalar α]

/-- Nobody drawn is fitter than the earliest of the fittest. -/
theorem FirstBest.le (h : FirstBest fitness drawn i)
    (hNumbers : ∀ x ∈ fitness, Scalar.isNaN x = false) (hx : fitness[i]? = some x) (hj : j ∈ drawn)
    (hy : fitness[j]? = some y) : y ≤ x := by
  obtain ⟨before, after, value, rfl, hValue, hBefore, hAfter⟩ := h
  obtain rfl := Option.some.inj (hValue.symm.trans hx)
  rcases List.mem_append.mp hj with hEarlier | hHere
  · obtain ⟨z, hz, hLess⟩ := hBefore j hEarlier
    obtain rfl := Option.some.inj (hz.symm.trans hy)
    exact le_of_lt hLess
  · rcases List.mem_cons.mp hHere with rfl | hLater
    · obtain rfl := Option.some.inj (hx.symm.trans hy)
      exact le_self (hNumbers value (Array.mem_of_getElem? hValue))
    · obtain ⟨z, hz, hLe⟩ := hAfter j hLater
      obtain rfl := Option.some.inj (hz.symm.trans hy)
      exact hLe

omit [OrderedScalar α] in
/-- Somebody less fit was drawn before. -/
theorem FirstBest.cons (h : FirstBest fitness drawn i) (hy : fitness[j]? = some y)
    (hLess : ∀ x, fitness[i]? = some x → y < x) : FirstBest fitness (j :: drawn) i := by
  obtain ⟨before, after, value, rfl, hValue, hBefore, hAfter⟩ := h
  exact ⟨j :: before, after, value, rfl, hValue,
    List.forall_mem_cons.mpr ⟨⟨y, hy, hLess value hValue⟩, hBefore⟩, hAfter⟩

/-- A rival no fitter than the leader does not matter. -/
theorem FirstBest.insert (h : FirstBest fitness (leader :: rest) i)
    (hx : fitness[leader]? = some x) (hy : fitness[rival]? = some y) (hLe : y ≤ x) :
    FirstBest fitness (leader :: rival :: rest) i := by
  obtain ⟨before, after, value, hDrawn, hValue, hBefore, hAfter⟩ := h
  cases before with
  | nil =>
    obtain ⟨rfl, rfl⟩ := List.cons.inj hDrawn
    obtain rfl := Option.some.inj (hValue.symm.trans hx)
    exact ⟨[], rival :: rest, value, rfl, hValue, nofun,
      List.forall_mem_cons.mpr ⟨⟨y, hy, hLe⟩, hAfter⟩⟩
  | cons head before =>
    obtain ⟨rfl, rfl⟩ := List.cons.inj hDrawn
    obtain ⟨⟨z, hz, hLess⟩, hRest⟩ := List.forall_mem_cons.mp hBefore
    obtain rfl := Option.some.inj (hz.symm.trans hx)
    have hRivals := List.forall_mem_cons.mpr ⟨⟨y, hy, lt_of_le_of_lt hLe hLess⟩, hRest⟩
    exact ⟨leader :: rival :: before, after, value, rfl, hValue,
      List.forall_mem_cons.mpr ⟨⟨z, hz, hLess⟩, hRivals⟩, hAfter⟩

/-- **Challenging one by one** finds the earliest of the fittest. -/
theorem firstBest_foldl (hNumbers : ∀ x ∈ fitness, Scalar.isNaN x = false)
    (hRange : ∀ j ∈ first :: rest, j < fitness.size) :
    FirstBest fitness (first :: rest) (rest.foldl (ahead fitness) first) := by
  -- on the rivals, from the leader so far; only a fitter rival takes over
  induction rest generalizing first with
  | nil =>
    have hFirst := hRange first List.mem_cons_self
    exact ⟨[], [], fitness[first], rfl, Array.getElem?_eq_getElem hFirst, nofun, nofun⟩
  | cons rival rest ih =>
    obtain ⟨hFirst, hRivals⟩ := List.forall_mem_cons.mp hRange
    obtain ⟨hRival, hRest⟩ := List.forall_mem_cons.mp hRivals
    have hx : fitness[first]? = some fitness[first] := Array.getElem?_eq_getElem hFirst
    have hy : fitness[rival]? = some fitness[rival] := Array.getElem?_eq_getElem hRival
    rw [List.foldl_cons, ahead_eq hx hy]
    split
    · next hLess =>
      have hLater := ih (List.forall_mem_cons.mpr ⟨hRival, hRest⟩)
      exact hLater.cons hx fun z hz =>
        lt_of_lt_of_le hLess (hLater.le hNumbers hz List.mem_cons_self hy)
    · next hNot =>
      have hEarlier := ih (List.forall_mem_cons.mpr ⟨hFirst, hRest⟩)
      exact hEarlier.insert hx hy ((not_lt_iff_le (hNumbers _ (Array.getElem_mem hFirst))
        (hNumbers _ (Array.getElem_mem hRival))).mp hNot)

/-- **The winner** is the earliest of the fittest entrants. -/
theorem winner_firstBest {ρ : Type} [RandomSource ρ]
    (hNumbers : ∀ x ∈ fitness, Scalar.isNaN x = false)
    (hExcluded : ∀ e ∈ excluded, e < fitness.size)
    (hPool : 0 < poolSize fitness.size excluded) {rounds : Nat} {r after : ρ}
    (h : winner fitness rounds excluded r = .ok (i, after)) :
    FirstBest fitness
      (entrants (poolSize fitness.size excluded) excluded (max rounds 1) r).1 i := by
  have hRange : ∀ j ∈ (entrants (poolSize fitness.size excluded) excluded (max rounds 1) r).1,
      j < fitness.size := fun j hj => lt_of_mem_entrants hExcluded hPool hj
  obtain ⟨first, rest, after', hEntrants, hWinner⟩ := winner_eq hPool rounds r
  obtain ⟨rfl, -⟩ := Prod.mk.inj (Except.ok.inj (hWinner.symm.trans h))
  rw [hEntrants] at hRange ⊢
  exact firstBest_foldl hNumbers hRange

end Fittest

end Tournament

end SwapSearch
