import SwapSearch.Scalar
import SwapSearch.Failure

/-!
# SwapSearch — settings of the tabu walk

Magnitudes and tenures are fractions of the permutation size. The `with…`
functions keep their arguments in the range that makes sense; `validate` is what
a walk asks of settings that came from elsewhere.
-/

namespace SwapSearch.Tabu

/-- What the walk does at a local optimum. -/
inductive Perturbation where
  /-- Stop there. -/
  | disabled
  /-- A burst of forced swaps, each the best pair that is not tabu, or a random pair. -/
  | normal
  /-- A burst of forced swaps, drawn among pairs that are not tabu along a temperature ramp. -/
  | annealed
  deriving DecidableEq, Repr

structure Settings (α : Type) where
  perturbation : Perturbation
  /-- Base length of a burst, as a fraction of the size; at least two swaps are made. -/
  jump : α
  /-- Escapes without a new best before a stagnation jump. -/
  stagnationAfter : Nat
  /-- Bounds of the stagnation jump, as fractions of the size. -/
  minStagnation : α
  maxStagnation : α
  /-- Bounds of the tabu tenure, as fractions of the size. -/
  minTenure : α
  maxTenure : α
  /-- Least probability of a tabu-guided instead of a random swap. -/
  minDirected : α
  /-- Temperature at which the annealed ramp ends. -/
  minTemperature : α
  deriving BEq

namespace Settings

variable {α : Type} [Scalar α]

def default : Settings α where
  perturbation := .normal
  jump := 0.15
  stagnationAfter := 250
  minStagnation := 0.2
  maxStagnation := 0.4
  minTenure := 0.9
  maxTenure := 1.1
  minDirected := 0.75
  minTemperature := 0.1

instance : Inhabited (Settings α) := ⟨default⟩

def withPerturbation (s : Settings α) (perturbation : Perturbation) : Settings α :=
  { s with perturbation }

def withJump (s : Settings α) (magnitude : α) : Settings α :=
  { s with jump := Scalar.larger magnitude 0 }

def withStagnation (s : Settings α) (after : Nat) (lo hi : α) : Settings α :=
  { s with
    stagnationAfter := after
    minStagnation := Scalar.larger lo 0
    maxStagnation := Scalar.larger hi 0 }

def withTenure (s : Settings α) (lo hi : α) : Settings α :=
  { s with minTenure := Scalar.larger lo 0, maxTenure := Scalar.larger hi 0 }

def withMinDirected (s : Settings α) (p : α) : Settings α :=
  { s with minDirected := Scalar.clamp 0 1 p }

def withMinTemperature (s : Settings α) (t : α) : Settings α := { s with minTemperature := t }

/-- The first setting that is out of range, in the order of the checks. -/
def defect? (s : Settings α) : Option SettingDefect :=
  if s.stagnationAfter = 0 then some .stagnationAfterZero
  else if s.maxStagnation < s.minStagnation then some .stagnationRangeInverted
  else if s.maxTenure < s.minTenure then some .tenureRangeInverted
  else if !(0 < s.minTemperature && Scalar.isFinite s.minTemperature) then
    some .temperatureNotPositive
  else if !Scalar.isFinite s.jump then some .jumpNotFinite
  else none

def validate (s : Settings α) : Except Rejection Unit :=
  match s.defect? with
  | some defect => .error (.invalidSettings defect)
  | none => .ok ()

/-- Burst length for a jump magnitude on `n` positions: at least two swaps. -/
def jumpLength (jump : α) (n : Nat) : Nat := max (Scalar.toWord (Scalar.ceil (jump * (n : α)))) 2

end Settings

end SwapSearch.Tabu
