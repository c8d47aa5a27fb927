/-! # Keystream

    The stream of 32-bit words that random numbers are drawn from: the ChaCha
    permutation with twelve rounds over a key of eight words and a block
    counter of 64 bits. Each block gives sixteen words, and the stream repeats
    when the counter does. The key comes from a 64-bit seed through a
    linear congruential generator with a permuted output. -/

namespace ZMachine.Random

/-- The words of a block. -/
abbrev Block := Vector UInt32 16

/-- A key of eight words. -/
structure StreamKey where
  words : Vector UInt32 8
  deriving DecidableEq

/-- Turns a word to the left by `n` bits, for `n` from 1 to 31. -/
def rotateLeft (x n : UInt32) : UInt32 := (x <<< n) ||| (x >>> (32 - n))

/-- Turns a word to the right by `n` bits, for `n` from 0 to 31. -/
def rotateRight (x n : UInt32) : UInt32 := (x >>> n) ||| (x <<< (32 - n))

namespace StreamKey

/-- The state after one step of the generator that spreads a seed. -/
def nextSeed (s : UInt64) : UInt64 := s * 6364136223846793005 + 11634580027462260723

/-- The word that a state of the generator puts out. -/
def seedWord (s : UInt64) : UInt32 :=
  rotateRight (((s >>> 18) ^^^ s) >>> 27).toUInt32 (s >>> 59).toUInt32

/-- The key that a seed is spread to. -/
def ofSeed (seed : UInt64) : StreamKey :=
  ⟨Vector.ofFn fun i => seedWord (Nat.repeat nextSeed (i.val + 1) seed)⟩

end StreamKey

/-- The basic step: mixes the words at four places. -/
def quarterRound (s : Block) (a b c d : Fin 16) : Block :=
  let s := s.set a (s[a] + s[b])
  let s := s.set d (rotateLeft (s[d] ^^^ s[a]) 16)
  let s := s.set c (s[c] + s[d])
  let s := s.set b (rotateLeft (s[b] ^^^ s[c]) 12)
  let s := s.set a (s[a] + s[b])
  let s := s.set d (rotateLeft (s[d] ^^^ s[a]) 8)
  let s := s.set c (s[c] + s[d])
  s.set b (rotateLeft (s[b] ^^^ s[c]) 7)

/-- Two rounds: the columns of the block, and then its diagonals. -/
def doubleRound (s : Block) : Block :=
  let s := quarterRound s 0 4 8 12
  let s := quarterRound s 1 5 9 13
  let s := quarterRound s 2 6 10 14
  let s := quarterRound s 3 7 11 15
  let s := quarterRound s 0 5 10 15
  let s := quarterRound s 1 6 11 12
  let s := quarterRound s 2 7 8 13
  quarterRound s 3 4 9 14

/-- The block before mixing: constants, key, counter with its low word first, and zeros. -/
def initialBlock (key : StreamKey) (counter : UInt64) : Block :=
  let constants : Vector UInt32 4 := #v[0x61707865, 0x3320646e, 0x79622d32, 0x6b206574]
  constants ++ key.words ++ #v[counter.toUInt32, (counter >>> 32).toUInt32, 0, 0]

/-- The words of the block with a given counter. -/
def block (key : StreamKey) (counter : UInt64) : Block :=
  let start := initialBlock key counter
  Vector.zipWith (· + ·) (Nat.repeat doubleRound 6 start) start

/-- The number of words after which the stream repeats. -/
def period : Nat := 0x100000000000000000

/-- The word of the stream at a position. -/
def streamWord (key : StreamKey) (position : Nat) : UInt32 :=
  (block key (UInt64.ofNat (position / 16)))[Fin.ofNat 16 position]

end ZMachine.Random
