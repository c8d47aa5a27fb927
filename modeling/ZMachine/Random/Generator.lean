import ZMachine.Random.Keystream

/-! # Random numbers

    A generator is a keystream and a position in it. A number from 1 up to a
    range is drawn by multiplying a word of the stream with the range and
    keeping the high half. Words whose low half lies above a zone would favour
    some numbers; they are skipped. -/

namespace ZMachine.Random

/-- Where the key of a generator comes from. -/
inductive Mode where
  | predictable (seed : UInt64)
  | unpredictable
  deriving DecidableEq, Repr

namespace Mode

/-- A mode in a report. -/
def describe : Mode → String
  | predictable seed => "Predictable(" ++ String.ofList (Nat.toDigits 10 seed.toNat) ++ ")"
  | unpredictable => "RandomUniform"

end Mode

/-- A keystream and the position of its next word. -/
structure Generator where
  mode : Mode
  key : StreamKey
  position : Nat := 0
  deriving DecidableEq

namespace Generator

/-- The generator of a seed. -/
def predictable (seed : UInt64) : Generator :=
  { mode := .predictable seed, key := .ofSeed seed }

/-- A generator whose seed nobody is told. -/
def unpredictable (entropy : UInt64) : Generator :=
  { mode := .unpredictable, key := .ofSeed entropy }

/-- The greatest low half that is accepted for a range. -/
def zone (range : Nat) : Nat := 0xFFFFFFFF - (0x100000000 - range) % range

/-- The first position from `position` on, among `fuel` of them, whose word is accepted for
    a range. -/
def accepted? (key : StreamKey) (range : Nat) : (fuel position : Nat) → Option Nat
  | 0, _ => none
  | fuel + 1, position =>
      if (streamWord key position).toNat * range % 0x100000000 ≤ zone range then some position
      else accepted? key range fuel (position + 1)

/-- Draws a number from 1 up to a range; a range of 0 counts as 1. There is no
    number only if a whole period of the stream is refused. -/
def draw? (g : Generator) (range : UInt16) : Option (UInt16 × Generator) :=
  let r := max range.toNat 1
  (accepted? g.key r period g.position).map fun p =>
    (UInt16.ofNat (1 + (streamWord g.key p).toNat * r / 0x100000000), { g with position := p + 1 })

end Generator

end ZMachine.Random
