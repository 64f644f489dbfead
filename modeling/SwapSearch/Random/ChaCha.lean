import SwapSearch.Random.Source

/-!
# SwapSearch — the ChaCha generator

The generator behind a seeded run: the ChaCha block function with twelve rounds,
applied to a key, a block counter from zero on, and a zero nonce. The words of
each block are handed out in order; a 64-bit word is two 32-bit words, the low
half first.

The key comes from a 64-bit seed, expanded by a permuted congruential generator
that yields one 32-bit word per step.
-/

namespace SwapSearch.Random

/-- The sixteen words the block function works on. -/
abbrev ChaChaBlock := Vector UInt32 16

namespace ChaChaBlock

def rotateLeft (x k : UInt32) : UInt32 := (x <<< k) ||| (x >>> (32 - k))

/-- Mixes four words of the block. -/
def quarterRound (s : ChaChaBlock) (a b c d : Fin 16) : ChaChaBlock :=
  let s := s.set a (s[a] + s[b])
  let s := s.set d (rotateLeft (s[d] ^^^ s[a]) 16)
  let s := s.set c (s[c] + s[d])
  let s := s.set b (rotateLeft (s[b] ^^^ s[c]) 12)
  let s := s.set a (s[a] + s[b])
  let s := s.set d (rotateLeft (s[d] ^^^ s[a]) 8)
  let s := s.set c (s[c] + s[d])
  s.set b (rotateLeft (s[b] ^^^ s[c]) 7)

/-- A round on the columns and a round on the diagonals. -/
def doubleRound (s : ChaChaBlock) : ChaChaBlock :=
  let s := s.quarterRound 0 4 8 12
  let s := s.quarterRound 1 5 9 13
  let s := s.quarterRound 2 6 10 14
  let s := s.quarterRound 3 7 11 15
  let s := s.quarterRound 0 5 10 15
  let s := s.quarterRound 1 6 11 12
  let s := s.quarterRound 2 7 8 13
  s.quarterRound 3 4 9 14

/-- `k` double rounds. -/
def doubleRounds : Nat → ChaChaBlock → ChaChaBlock
  | 0, s => s
  | k + 1, s => doubleRounds k (doubleRound s)

end ChaChaBlock

/-- A ChaCha stream: its key, the number of the next block, and the words of the current block
not handed out yet. -/
structure ChaCha where
  key : Vector UInt32 8
  counter : UInt64
  pending : List UInt32

namespace ChaCha

/-- The block of a key and a counter: constants, key, counter and nonce, mixed by twelve rounds
and added to themselves. -/
def block (key : Vector UInt32 8) (counter : UInt64) : ChaChaBlock :=
  let start : ChaChaBlock :=
    #v[0x61707865, 0x3320646e, 0x79622d32, 0x6b206574,
      key[0], key[1], key[2], key[3], key[4], key[5], key[6], key[7],
      counter.toUInt32, (counter >>> 32).toUInt32, 0, 0]
  Vector.zipWith (· + ·) (ChaChaBlock.doubleRounds 6 start) start

def next (s : ChaCha) : UInt32 × ChaCha :=
  match s.pending with
  | w :: rest => (w, { s with pending := rest })
  | [] =>
    let words := (block s.key s.counter).toList
    (words.headD 0, { s with counter := s.counter + 1, pending := words.tail })

instance : RandomSource ChaCha where
  next32 := next
  next64 s :=
    let (low, s) := s.next
    let (high, s) := s.next
    (low.toUInt64 ||| (high.toUInt64 <<< 32), s)

/-- One step of the seed expansion: the state moves on linearly, and the word is its permuted
high part. -/
def expand (state : UInt64) : UInt32 × UInt64 :=
  let state := state * 6364136223846793005 + 11634580027462260723
  let mixed := (((state >>> 18) ^^^ state) >>> 27).toUInt32
  let turn := (state >>> 59).toUInt32
  ((mixed >>> turn) ||| (mixed <<< ((32 - turn) % 32)), state)

/-- `k` words of the seed expansion. -/
def expandWords : Nat → UInt64 → List UInt32
  | 0, _ => []
  | k + 1, state =>
    let (w, state) := expand state
    w :: expandWords k state

/-- The stream of a seed. -/
def ofSeed (seed : UInt64) : ChaCha :=
  let words := expandWords 8 seed
  { key := Vector.ofFn fun i => words.getD i 0, counter := 0, pending := [] }

end ChaCha

end SwapSearch.Random
