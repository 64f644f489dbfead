import SwapSearch.Random.Source

/-!
# SwapSearch — small generators

Two instances of `RandomSource` that keep a word or two of state.

* `SplitMix` adds a constant to its state and scrambles the sum.
* `WordCycle` hands out a fixed list of words over and over. It makes every
  sequence of draws reachable on purpose.
-/

namespace SwapSearch.Random

/-- A counter in steps of the golden ratio, whose value is scrambled into each word. -/
structure SplitMix where
  state : UInt64

namespace SplitMix

def scramble (z : UInt64) : UInt64 :=
  let z := (z ^^^ (z >>> 30)) * 0xBF58476D1CE4E5B9
  let z := (z ^^^ (z >>> 27)) * 0x94D049BB133111EB
  z ^^^ (z >>> 31)

def next (s : SplitMix) : UInt64 × SplitMix :=
  let state := s.state + 0x9E3779B97F4A7C15
  (scramble state, ⟨state⟩)

instance : RandomSource SplitMix where
  next32 s := let (w, s) := s.next; (w.toUInt32, s)
  next64 := next

end SplitMix

/-- A list of words, handed out in order and from the start again. -/
structure WordCycle where
  words : Array UInt64
  position : Nat

namespace WordCycle

def next (s : WordCycle) : UInt64 × WordCycle :=
  (s.words.getD (s.position % s.words.size) 0, { s with position := s.position + 1 })

instance : RandomSource WordCycle where
  next32 s := let (w, s) := s.next; (w.toUInt32, s)
  next64 := next

end WordCycle

end SwapSearch.Random
