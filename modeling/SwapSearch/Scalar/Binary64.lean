import SwapSearch.Scalar

/-!
# SwapSearch — scalars: binary floating point

The scalars the search runs on are IEEE 754 binary64 numbers (`Float`), each
operation rounded once and nothing reassociated.

Ranking needs more than the value. The *total order* of IEEE 754 also places
zeros by sign and a not-a-number value by its sign: below every number when
negative, above when positive. It is an order on bit patterns, so it is defined
on `BitPattern`; a `Float` carries a single not-a-number value and is ranked by
its pattern.
-/

namespace SwapSearch

/-- A binary64 number given by its 64 bits. -/
structure BitPattern where
  bits : UInt64
  deriving DecidableEq

namespace BitPattern

def ofFloat (x : Float) : BitPattern := ⟨x.toBits⟩

/-- The number the pattern stands for. -/
def toFloat (p : BitPattern) : Float := Float.ofBits p.bits

/-- The sign bit is set. -/
def isNegative (p : BitPattern) : Bool := 0x8000000000000000 ≤ p.bits

/-- Rank in the IEEE 754 total order: negative patterns descend, the others ascend above them. -/
def rank (p : BitPattern) : UInt64 :=
  if p.isNegative then ~~~ p.bits else p.bits ||| 0x8000000000000000

instance : LT BitPattern := ⟨fun p q => p.toFloat < q.toFloat⟩

instance : Graded BitPattern where
  decLt p q := inferInstanceAs (Decidable (p.toFloat < q.toFloat))
  totalLt p q := p.rank < q.rank

end BitPattern

instance : Graded Float where
  decLt := Float.decLt
  totalLt x y := (BitPattern.ofFloat x).rank < (BitPattern.ofFloat y).rank

instance : Scalar Float where
  zero := 0
  one := 1
  natCast := Float.ofNat
  intCast := Float.ofInt
  ofScientific := OfScientific.ofScientific
  decLe := Float.decLe
  posInf := 1 / 0
  negInf := -1 / 0
  isFinite := Float.isFinite
  ceil := Float.ceil
  round := Float.round
  toWord x := x.toUInt64.toNat
  exp := Float.exp
  log := Float.log
  pow := Float.pow

end SwapSearch
