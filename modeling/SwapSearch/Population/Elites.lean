import SwapSearch.Failure
import SwapSearch.Population.Member

/-!
# SwapSearch — the elite set

The elite set remembers the best members it was offered, each solution once and at
most `capacity` of them. A set that is full makes room by giving up its lowest
member, and only for a member with a larger fitness.
-/

namespace SwapSearch

structure EliteSet (α : Type) where
  capacity : Nat
  members : Array (Member α)

namespace EliteSet

variable {α : Type} [Graded α]

/-- A set without members, with room for at least one. -/
def empty (capacity : Nat) : Except Breach (EliteSet α) :=
  if capacity = 0 then .error .eliteCapacity else .ok { capacity, members := #[] }

def size (s : EliteSet α) : Nat := s.members.size

/-- Gives the place of the lowest member to a fitter one. -/
def displace (s : EliteSet α) (m : Member α) : Bool × EliteSet α :=
  match Member.lowest? s.members with
  | none => (false, s)
  | some low =>
    if s.members[low]?.any fun worst => worst.fitness < m.fitness then
      (true, { s with members := s.members.setIfInBounds low m })
    else (false, s)

/-- Offers a member. The answer is whether the set took it. -/
def offer (s : EliteSet α) (m : Member α) : Bool × EliteSet α :=
  if Member.listed s.members m.solution then (false, s)
  else if s.size < s.capacity then (true, { s with members := s.members.push m })
  else s.displace m

end EliteSet

end SwapSearch
