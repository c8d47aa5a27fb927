import ZMachine.Header
import ZMachine.Text.Encode

/-! # Dictionary

    A dictionary lists the characters that separate words, and then its
    entries in ascending order of their keys. An entry starts with the two
    words of its key; the rest of it belongs to the story. -/

namespace ZMachine

/-- The layout of a dictionary. -/
structure Dictionary where
  address : Nat
  /-- The characters that are words of their own. -/
  separators : List UInt8
  entryLength : UInt8
  entryCount : UInt16
  /-- The address of the first entry. -/
  entries : Nat
  deriving DecidableEq, Repr, Inhabited

namespace Dictionary

/-- Reads the layout of the dictionary that a header names. -/
def ofMemory (m : Memory) (h : Header) : Except Fault Dictionary := do
  let address := h.dictionary.toNat
  let separatorCount ← m.byteAt address
  let separators ← m.slice (address + 1) separatorCount.toNat
  let start := address + 1 + separatorCount.toNat
  let entryLength ← m.byteAt start
  let entryCount ← m.wordAt (start + 1)
  pure { address, separators, entryLength, entryCount, entries := start + 3 }

/-- The address of the entry with a given index. -/
def entryAddress (d : Dictionary) (i : Nat) : Nat :=
  d.entries + i * d.entryLength.toNat

/-- The key of the entry at an address. -/
def keyAt (m : Memory) (a : Nat) : Except Fault Text.Key := do
  let first ← m.wordAt a
  let second ← m.wordAt (a + 2)
  pure ⟨first, second⟩

/-- The address of the entry with a key among those with an index from `low` up
    to and without `high`, or 0. Each step halves the range, and `fuel` bounds
    the number of steps. -/
def search (d : Dictionary) (m : Memory) (key : Text.Key) :
    (fuel low high : Nat) → Except Fault Nat
  | 0, _, _ => pure 0
  | fuel + 1, low, high =>
      if low < high then do
        let middle := (low + high) / 2
        let a := d.entryAddress middle
        let entry ← keyAt m a
        match key.compare entry with
        | .lt => search d m key fuel low middle
        | .gt => search d m key fuel (middle + 1) high
        | .eq => pure a
      else
        pure 0

/-- The address of the entry of a word, in 16 bits, or 0 if there is none. -/
def lookup (d : Dictionary) (m : Memory) (text : String) : Except Fault UInt16 := do
  let a ← d.search m (Text.encode text) d.entryCount.toNat 0 d.entryCount.toNat
  pure (UInt16.ofNat a)

end Dictionary

end ZMachine
