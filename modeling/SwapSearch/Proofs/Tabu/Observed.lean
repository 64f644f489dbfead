import SwapSearch.Tabu.Search

/-!
# SwapSearch — the walk under observation

To say something about every point at which a walk reads its gain table, those
points must be put on record. A walk has a look in front of every such read: at the best
move, at the gain of an exchange, and at the choices of both kinds of bursts. `Observed`
is the monad that keeps what is seen there, and it stays on record when the walk breaks
off with a failure later. An observed walk is the walk in this monad.

Looking changes nothing: what a function results in under observation is the result of the
plain computation.

## Results

* `Upholds.bind`          — what is seen and what results, step by step.
* `result_burstM`         — a burst under observation results in what its picks result in.
* `result_observeRun`     — an observed walk is the walk.
* `result_observeImprove` — an observed search is the search.
-/

namespace SwapSearch

/-- A computation that may fail, and the states that were looked at on the way. -/
structure Observed (σ β : Type) where
  result : Except Breach β
  seen : List σ

namespace Observed

variable {σ β γ : Type}

/-- What a computation leads to is seen after what it has seen itself. -/
def andThen (x : Observed σ β) (f : β → Observed σ γ) : Observed σ γ :=
  ⟨x.result >>= fun b => (f b).result,
    x.seen ++ match x.result with
      | .ok b => (f b).seen
      | .error _ => []⟩

instance : Monad (Observed σ) where
  pure b := ⟨.ok b, []⟩
  bind := andThen

/-- A plain computation, in which there is nothing to see. -/
instance : MonadLift (Except Breach) (Observed σ) where
  monadLift x := ⟨x, []⟩

/-- What is looked at is put on record. -/
instance : MonadLook σ (Observed σ) where
  look s := ⟨.ok (), [s]⟩

@[simp] theorem result_bind (x : Observed σ β) (f : β → Observed σ γ) :
    (x >>= f).result = x.result >>= fun b => (f b).result := rfl

@[simp] theorem result_lift (x : Except Breach β) : (liftM x : Observed σ β).result = x := rfl

/-- Whatever is seen satisfies `P`, and the result, if there is one, satisfies `Q`. -/
structure Upholds (x : Observed σ β) (P : σ → Prop) (Q : β → Prop) : Prop where
  seen : ∀ s ∈ x.seen, P s
  result : ∀ b, x.result = .ok b → Q b

variable {P : σ → Prop} {Q : β → Prop}

theorem Upholds.pure {b : β} (h : Q b) : Upholds (pure b : Observed σ β) P Q where
  seen _ hs := nomatch hs
  result b' hb := by
    obtain rfl := Except.ok.inj hb
    exact h

theorem Upholds.look {s : σ} (h : P s) :
    Upholds (MonadLook.look s : Observed σ Unit) P fun _ => True where
  seen t ht := by
    obtain rfl := List.mem_singleton.mp ht
    exact h
  result _ _ := trivial

theorem Upholds.lift {x : Except Breach β} (h : ∀ b, x = .ok b → Q b) :
    Upholds (liftM x : Observed σ β) P Q where
  seen _ hs := nomatch hs
  result := h

/-- Nothing is asked of what is seen. -/
theorem Upholds.of_result {x : Observed σ β} (h : ∀ b, x.result = .ok b → Q b) :
    Upholds x (fun _ => True) Q :=
  ⟨fun _ _ => trivial, h⟩

/-- One computation after the other. -/
theorem Upholds.bind {R : γ → Prop} {x : Observed σ β} {f : β → Observed σ γ}
    (hx : Upholds x P Q) (hf : ∀ b, Q b → Upholds (f b) P R) : Upholds (x >>= f) P R := by
  obtain ⟨result, seen⟩ := x
  cases result with
  | error e =>
    refine ⟨fun s hs => ?_, fun c hc => nomatch hc⟩
    have hSeen : s ∈ seen ++ [] := hs
    rw [List.append_nil] at hSeen
    exact hx.seen s hSeen
  | ok b =>
    have hRest := hf b (hx.result b rfl)
    refine ⟨fun s hs => ?_, fun c hc => hRest.result c hc⟩
    rcases List.mem_append.mp hs with hs | hs
    · exact hx.seen s hs
    · exact hRest.seen s hs

end Observed

namespace Tabu

open Observed

variable {L α μ ρ : Type} [Scalar α]

namespace Walk

-- ---------------------------------------------------------------------------
-- Moving and choosing
-- ---------------------------------------------------------------------------

section Moving

variable [Landscape L α] [Monitor μ α]

abbrev observeExchange (w : Walk L α μ ρ) (i j : Nat) : Observed (Walk L α μ ρ) (Walk L α μ ρ) :=
  w.exchangeM i j

abbrev observeFollow (w : Walk L α μ ρ) (choice : Option (Nat × Nat)) :
    Observed (Walk L α μ ρ) (Walk L α μ ρ) := w.followM choice

abbrev observeClimb (w : Walk L α μ ρ) (move : Move α) : Observed (Walk L α μ ρ) (Walk L α μ ρ) :=
  w.climbM move

theorem result_observeFollow (w : Walk L α μ ρ) (choice : Option (Nat × Nat)) :
    (w.observeFollow choice).result = w.follow choice := by
  cases choice <;> rfl

end Moving

section Choosing

variable [RandomSource ρ]

abbrev observeDirectedPick (w : Walk L α μ ρ) (directed : α) :
    Observed (Walk L α μ ρ) (Option (Nat × Nat) × Walk L α μ ρ) := w.directedPickM directed

abbrev observeAnnealedPick (w : Walk L α μ ρ) (temperature : α) :
    Observed (Walk L α μ ρ) (Option (Nat × Nat) × Walk L α μ ρ) := w.annealedPickM temperature

theorem result_observeDirectedPick (w : Walk L α μ ρ) (directed : α) :
    (w.observeDirectedPick directed).result = w.directedPick directed := by
  unfold observeDirectedPick directedPick directedPickM
  refine congrArg (w.drawTenure >>= ·) (funext fun drawn => ?_)
  dsimp only
  split <;> rfl

theorem result_observeAnnealedPick (w : Walk L α μ ρ) (temperature : α) :
    (w.observeAnnealedPick temperature).result = w.annealedPick temperature := by
  unfold observeAnnealedPick annealedPick annealedPickM
  refine congrArg (w.drawTenure >>= ·) (funext fun drawn => ?_)
  obtain ⟨tenure, v⟩ := drawn
  cases hAspires : v.gains.moves.find? fun move => v.aspires move.gain with
  | none =>
    simp only [hAspires]
    rfl
  | some move =>
    simp only [hAspires]
    rfl

end Choosing

-- ---------------------------------------------------------------------------
-- Bursts and iterations
-- ---------------------------------------------------------------------------

variable [Landscape L α] [Monitor μ α]

/-- A burst under observation results in what its picks result in. -/
theorem result_burstM
    {pick : α → Walk L α μ ρ → Observed (Walk L α μ ρ) (Option (Nat × Nat) × Walk L α μ ρ)}
    {plain : α → Walk L α μ ρ → Except Breach (Option (Nat × Nat) × Walk L α μ ρ)}
    (hPick : ∀ temperature w, (pick temperature w).result = plain temperature w) (cool : α → α)
    (steps : Nat) (temperature : α) (w : Walk L α μ ρ) :
    (burstM pick cool steps temperature w).result = burstM plain cool steps temperature w := by
  induction steps generalizing temperature w with
  | zero => rfl
  | succ steps ih =>
    unfold burstM
    obtain ⟨stop, v⟩ := w.stopRequested
    cases stop with
    | true => rfl
    | false =>
      simp only [Bool.false_eq_true, if_false, result_bind, hPick, result_observeFollow]
      refine congrArg (plain temperature v >>= ·) (funext fun picked => ?_)
      refine congrArg (picked.2.follow picked.1 >>= ·) (funext fun next => ?_)
      cases picked.1.isSome && next.isBetter with
      | true => rfl
      | false => exact ih (cool temperature) next

variable [RandomSource ρ]

abbrev observeRunDirected (w : Walk L α μ ρ) (strength : Nat) (ratio : α) :
    Observed (Walk L α μ ρ) (Walk L α μ ρ) := w.runDirectedM strength ratio

abbrev observeRunAnnealed (w : Walk L α μ ρ) (strength : Nat) (ratio : α) :
    Observed (Walk L α μ ρ) (Walk L α μ ρ) := w.runAnnealedM strength ratio

abbrev observeLaunch (w : Walk L α μ ρ) (annealed : Bool) :
    Observed (Walk L α μ ρ) (Walk L α μ ρ) := w.launchM annealed

abbrev observeIterate (w : Walk L α μ ρ) : Observed (Walk L α μ ρ) (Progress L α μ ρ) := w.iterateM

abbrev observeRun (limit : Nat) (w : Walk L α μ ρ) : Observed (Walk L α μ ρ) (Walk L α μ ρ) :=
  w.runM limit

theorem result_observeRunDirected (w : Walk L α μ ρ) (strength : Nat) (ratio : α) :
    (w.observeRunDirected strength ratio).result = w.runDirected strength ratio :=
  result_burstM (fun _ v => v.result_observeDirectedPick _) _ _ _ _

theorem result_observeRunAnnealed (w : Walk L α μ ρ) (strength : Nat) (ratio : α) :
    (w.observeRunAnnealed strength ratio).result = w.runAnnealed strength ratio :=
  result_burstM (fun temperature v => v.result_observeAnnealedPick temperature) _ _ _ _

theorem result_observeLaunch (w : Walk L α μ ρ) (annealed : Bool) :
    (w.observeLaunch annealed).result = w.launch annealed := by
  unfold observeLaunch launch launchM
  cases annealed with
  | true =>
    simp only [if_true, result_bind, result_lift, result_observeRunAnnealed]
    rfl
  | false =>
    simp only [Bool.false_eq_true, if_false, result_bind, result_lift, result_observeRunDirected]
    rfl

theorem result_observeIterate (w : Walk L α μ ρ) : w.observeIterate.result = w.iterate := by
  unfold observeIterate iterate iterateM
  dsimp only
  cases hMove : w.gains.bestMove.filter (0 < ·.gain) with
  | some move => rfl
  | none =>
    cases hKind : w.settings.perturbation with
    | disabled => rfl
    | normal =>
      simp only [result_bind, result_observeLaunch]
      rfl
    | annealed =>
      simp only [result_bind, result_observeLaunch]
      rfl

/-- An observed walk is the walk. -/
theorem result_observeRun (limit : Nat) (w : Walk L α μ ρ) :
    (w.observeRun limit).result = w.run limit := by
  induction limit generalizing w with
  | zero => rfl
  | succ limit ih =>
    unfold observeRun run runM
    obtain ⟨stop, v⟩ := w.stopRequested
    cases stop with
    | true => rfl
    | false =>
      simp only [Bool.false_eq_true, if_false, result_bind, result_observeIterate]
      refine congrArg (v.iterate >>= ·) (funext fun progress => ?_)
      cases progress with
      | continued next => exact ih next
      | settled next => rfl

end Walk

namespace Search

variable [Landscape L α] [Monitor μ α] [RandomSource ρ]

abbrev observeWalk (limit : Nat) (w : Walk L α μ ρ) : Observed (Walk L α μ ρ) (Walk L α μ ρ) :=
  walkM limit w

theorem result_observeWalk (limit : Nat) (w : Walk L α μ ρ) :
    (observeWalk limit w).result = walk limit w := by
  unfold observeWalk walk walkM
  cases w.size < 2 || limit == 0 with
  | true => rfl
  | false =>
    obtain ⟨stop, v⟩ := w.stopRequested
    cases stop with
    | true => rfl
    | false =>
      exact congrArg (v.refresh none >>= ·) (funext fun next => next.result_observeRun limit)

abbrev observeImprove (s : Search α) (start : Permutation) (value : α) (limit : Nat)
    (context : Context L μ ρ) : Observed (Walk L α μ ρ) (Outcome α × Context L μ ρ) :=
  s.improveM start value limit context

/-- An observed search is the search. -/
theorem result_observeImprove (s : Search α) (start : Permutation) (value : α) (limit : Nat)
    (context : Context L μ ρ) :
    (s.observeImprove start value limit context).result = s.improve start value limit context := by
  refine congrArg (s.begin start value context >>= ·) (funext fun w => ?_)
  exact congrArg (· >>= fun last => .ok (last.outcome, last.context)) (result_observeWalk limit w)

end Search

end Tabu

end SwapSearch
