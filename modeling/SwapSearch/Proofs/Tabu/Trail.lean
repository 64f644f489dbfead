import Mathlib.Data.List.Infix
import SwapSearch.Proofs.Tabu.Ledger

/-!
# SwapSearch — the trail of a walk

The trail lists the exchanges of a walk, newest first. Replayed from the start it
leads to the present solution, and its tails lead to every solution visited on the
way.

An observed walk looks at itself before it makes an exchange. So every exchange it
adds to its trail was seen coming: among the walks that were looked at is one whose
trail ends just before it. A computation of which this holds `Accounts` for its
trail.

## Results

* `Accounts.bind`           — one computation after the other.
* `accounts_burstM`   — bursts of either kind.
* `accounts_observeImprove` — no exchange of a search goes unseen.
-/

namespace SwapSearch.Tabu

open Observed

-- ---------------------------------------------------------------------------
-- Replaying
-- ---------------------------------------------------------------------------

/-- Where a trail leads. -/
def replay (start : Permutation) (trail : List (Nat × Nat)) : Permutation :=
  trail.foldr (fun pair p => p.swap pair.1 pair.2) start

/-- Every solution on a trail, the start included. -/
def visited (start : Permutation) (trail : List (Nat × Nat)) : List Permutation :=
  trail.tails.map (replay start)

theorem visited_cons (start : Permutation) (pair : Nat × Nat) (older : List (Nat × Nat)) :
    visited start (pair :: older) = replay start (pair :: older) :: visited start older := by
  rw [visited, List.tails_cons, List.map_cons]
  rfl

theorem replay_mem_visited (start : Permutation) (trail : List (Nat × Nat)) :
    replay start trail ∈ visited start trail := by
  cases trail with
  | nil => exact List.mem_singleton.mpr rfl
  | cons pair older =>
    rw [visited_cons]
    exact List.mem_cons_self

theorem size_replay (start : Permutation) (trail : List (Nat × Nat)) :
    (replay start trail).size = start.size := by
  induction trail with
  | nil => rfl
  | cons pair older ih => exact (Permutation.size_swap ..).trans ih

theorem size_of_mem_visited {start p : Permutation} {trail : List (Nat × Nat)}
    (h : p ∈ visited start trail) : p.size = start.size := by
  obtain ⟨older, -, rfl⟩ := List.mem_map.mp h
  exact size_replay start older

-- ---------------------------------------------------------------------------
-- Accounts
-- ---------------------------------------------------------------------------

section Accounts

variable {L α μ ρ β γ : Type}

/-- Every exchange that the computation adds to the trail `t` was seen coming. `T` reads the trail
off the result. -/
def Accounts (t : List (Nat × Nat)) (x : Observed (Walk L α μ ρ) β)
    (T : β → List (Nat × Nat)) : Prop :=
  ∀ b, x.result = .ok b → ∀ pair older, pair :: older <:+ T b →
    pair :: older <:+ t ∨ ∃ w ∈ x.seen, w.trail = older

variable {t : List (Nat × Nat)} {T : β → List (Nat × Nat)} {T' : γ → List (Nat × Nat)}

/-- Without an exchange there is nothing to account for. -/
theorem Accounts.of_eq {x : Observed (Walk L α μ ρ) β}
    (h : ∀ b, x.result = .ok b → T b = t) : Accounts t x T := by
  intro b hb pair older hSuffix
  rw [h b hb] at hSuffix
  exact Or.inl hSuffix

theorem Accounts.pure {b : β} (h : T b = t) :
    Accounts t (pure b : Observed (Walk L α μ ρ) β) T :=
  Accounts.of_eq fun c hc => by
    obtain rfl := Except.ok.inj hc
    exact h

theorem Accounts.bind {x : Observed (Walk L α μ ρ) β} {f : β → Observed (Walk L α μ ρ) γ}
    (hx : Accounts t x T) (hf : ∀ b, x.result = .ok b → Accounts (T b) (f b) T') :
    Accounts t (x >>= f) T' := by
  obtain ⟨result, seen⟩ := x
  intro c hc pair older hSuffix
  cases result with
  | error e => exact nomatch hc
  | ok b =>
    rcases hf b rfl c hc pair older hSuffix with hEarlier | ⟨w, hw, hTrail⟩
    · rcases hx b rfl pair older hEarlier with hBefore | ⟨w, hw, hTrail⟩
      · exact Or.inl hBefore
      · exact Or.inr ⟨w, List.mem_append_left _ hw, hTrail⟩
    · exact Or.inr ⟨w, List.mem_append_right _ hw, hTrail⟩

end Accounts

-- ---------------------------------------------------------------------------
-- Walks
-- ---------------------------------------------------------------------------

variable {L α μ ρ : Type}

theorem Walk.trail_eq_of_ledger_eq {v w : Walk L α μ ρ} (h : v.ledger = w.ledger) :
    v.trail = w.trail :=
  congrArg Ledger.trail h

/-- The walk after an iteration. -/
def Walk.Progress.walk : Walk.Progress L α μ ρ → Walk L α μ ρ
  | .continued w => w
  | .settled w => w

variable [Scalar α]

namespace Walk

variable [Monitor μ α]

theorem trail_recordIfBetter (w : Walk L α μ ρ) : w.recordIfBetter.trail = w.trail := by
  obtain ⟨best, bestValue, sinceBest, monitor, hRecorded⟩ := exists_recordIfBetter w
  rw [hRecorded]

variable [Landscape L α]

theorem accounts_observeExchange (w : Walk L α μ ρ) (i j : Nat) :
    Accounts w.trail (w.observeExchange i j) Walk.trail := by
  intro next hNext pair older hSuffix
  obtain ⟨landscape, gains, -, hLedger⟩ := ledger_of_exchange (w := w) (i := i) (j := j) hNext
  have hTrail : next.trail = (i, j) :: w.trail := congrArg Ledger.trail hLedger
  rw [hTrail] at hSuffix
  rcases List.suffix_cons_iff.mp hSuffix with hNewest | hEarlier
  · exact Or.inr ⟨w, List.mem_cons_self, (List.cons.inj hNewest).2.symm⟩
  · exact Or.inl hEarlier

theorem accounts_observeClimb (w : Walk L α μ ρ) (m : Move α) :
    Accounts w.trail (w.observeClimb m) Walk.trail :=
  Accounts.bind (accounts_observeExchange w m.first m.second) fun next _ =>
    Accounts.pure (trail_recordIfBetter next)

theorem accounts_observeFollow (w : Walk L α μ ρ) (choice : Option (Nat × Nat)) :
    Accounts w.trail (w.observeFollow choice) Walk.trail := by
  cases choice with
  | none => exact Accounts.of_eq fun next hNext => trail_eq_of_ledger_eq (ledger_of_skip hNext)
  | some pair => exact accounts_observeExchange w pair.1 pair.2

theorem accounts_burstM
    {pick : α → Walk L α μ ρ → Observed (Walk L α μ ρ) (Option (Nat × Nat) × Walk L α μ ρ)}
    {cool : α → α}
    (hPick : ∀ temperature w picked, (pick temperature w).result = .ok picked →
      picked.2.ledger = w.ledger)
    (steps : Nat) (temperature : α) (w : Walk L α μ ρ) :
    Accounts w.trail (burstM pick cool steps temperature w) Walk.trail := by
  induction steps generalizing temperature w with
  | zero => exact Accounts.pure rfl
  | succ steps ih =>
    unfold burstM
    have hAsked := trail_eq_of_ledger_eq (ledger_stopRequested w)
    generalize w.stopRequested = asked at hAsked ⊢
    obtain ⟨stop, v⟩ := asked
    rw [← hAsked]
    cases stop with
    | true => exact Accounts.pure rfl
    | false =>
      -- a pick only draws, so the trail is the same when it is followed
      refine Accounts.bind (T := fun picked => picked.2.trail)
        (Accounts.of_eq fun picked h => trail_eq_of_ledger_eq (hPick temperature v picked h))
        fun picked _ => ?_
      refine Accounts.bind (accounts_observeFollow picked.2 picked.1) fun next _ => ?_
      split
      · exact Accounts.pure rfl
      · exact ih (cool temperature) next

variable [RandomSource ρ]

theorem accounts_observeRunDirected (w : Walk L α μ ρ) (strength : Nat) (ratio : α) :
    Accounts w.trail (w.observeRunDirected strength ratio) Walk.trail :=
  accounts_burstM (fun _ v _ h =>
    ledger_of_directedPick ((v.result_observeDirectedPick _).symm.trans h)) strength 0 w

theorem accounts_observeRunAnnealed (w : Walk L α μ ρ) (strength : Nat) (ratio : α) :
    Accounts w.trail (w.observeRunAnnealed strength ratio) Walk.trail :=
  accounts_burstM (fun temperature v _ h =>
    ledger_of_annealedPick ((v.result_observeAnnealedPick temperature).symm.trans h)) _ _ w

theorem accounts_observeLaunch (w : Walk L α μ ρ) (annealed : Bool) :
    Accounts w.trail (w.observeLaunch annealed) Walk.trail := by
  refine Accounts.bind (T := fun settled => settled.2.trail)
    (Accounts.of_eq fun settled h => trail_eq_of_ledger_eq (ledger_of_settleStrength h))
    fun settled _ => ?_
  have hMarked := trail_eq_of_ledger_eq (ledger_markOptimum settled.2)
  dsimp only
  rw [← hMarked]
  split
  · exact Accounts.bind (accounts_observeRunAnnealed _ _ _) fun next _ =>
      Accounts.pure (trail_recordIfBetter next)
  · exact Accounts.bind (accounts_observeRunDirected _ _ _) fun next _ =>
      Accounts.pure (trail_recordIfBetter next)

theorem accounts_observeIterate (w : Walk L α μ ρ) :
    Accounts w.trail w.observeIterate fun progress => progress.walk.trail := by
  unfold observeIterate iterateM
  have hTrail : ({ w with iterations := w.iterations + 1 } : Walk L α μ ρ).trail = w.trail := rfl
  rw [← hTrail]
  -- what has been counted does not matter from here on
  generalize ({ w with iterations := w.iterations + 1 } : Walk L α μ ρ) = v
  refine Accounts.bind (T := fun _ => v.trail) (Accounts.of_eq fun _ _ => rfl) fun _ _ => ?_
  split
  · next m hMove =>
    exact Accounts.bind (accounts_observeClimb _ m) fun next _ => Accounts.pure rfl
  · split
    · exact Accounts.pure rfl
    · exact Accounts.bind (accounts_observeLaunch _ false) fun next _ => Accounts.pure rfl
    · exact Accounts.bind (accounts_observeLaunch _ true) fun next _ => Accounts.pure rfl

theorem accounts_observeRun (limit : Nat) (w : Walk L α μ ρ) :
    Accounts w.trail (observeRun limit w) Walk.trail := by
  -- the trail that is accounted for grows with the iterations, so the walk is generalized
  induction limit generalizing w with
  | zero => exact Accounts.pure rfl
  | succ limit ih =>
    unfold observeRun runM
    have hAsked := trail_eq_of_ledger_eq (ledger_stopRequested w)
    generalize w.stopRequested = asked at hAsked ⊢
    obtain ⟨stop, v⟩ := asked
    rw [← hAsked]
    cases stop with
    | true => exact Accounts.pure rfl
    | false =>
      refine Accounts.bind (accounts_observeIterate v) fun progress _ => ?_
      cases progress with
      | continued next => exact ih next
      | settled next => exact Accounts.pure rfl

end Walk

namespace Search

variable [Monitor μ α] [Landscape L α] [RandomSource ρ]

theorem accounts_observeWalk (limit : Nat) (w : Walk L α μ ρ) :
    Accounts w.trail (observeWalk limit w) Walk.trail := by
  unfold observeWalk walkM
  split
  · exact Accounts.pure rfl
  · have hAsked := Walk.trail_eq_of_ledger_eq (Walk.ledger_stopRequested w)
    generalize w.stopRequested = asked at hAsked ⊢
    obtain ⟨stop, v⟩ := asked
    rw [← hAsked]
    cases stop with
    | true => exact Accounts.pure rfl
    | false =>
      -- the first scan exchanges nothing
      refine Accounts.bind (T := Walk.trail) (Accounts.of_eq fun next hNext => ?_)
        fun next _ => Walk.accounts_observeRun limit next
      obtain ⟨landscape, gains, -, hLedger⟩ := Walk.ledger_of_refresh hNext
      exact congrArg Ledger.trail hLedger

/-- No exchange of a search goes unseen. -/
theorem accounts_observeImprove (s : Search α) (start : Permutation) (value : α) (limit : Nat)
    (context : Context L μ ρ) :
    Accounts [] (s.observeImprove start value limit context) fun returned => returned.1.trail := by
  refine Accounts.bind (T := Walk.trail) (Accounts.of_eq fun w hBegin => ?_) fun w _ =>
    Accounts.bind (accounts_observeWalk limit w) fun last _ => Accounts.pure rfl
  obtain ⟨-, blank, -, hLedger⟩ := ledger_of_begin hBegin
  exact congrArg Ledger.trail hLedger

end Search

end SwapSearch.Tabu
