import ZMachine.Header
import ZMachine.Text.Symbol

/-! # Decoding Z-strings

    A string extends from its address to the first word that is marked as the
    last one. Its text is what its symbols stand for, one after another: a
    character stands for itself, and an abbreviation for the whole text of the
    string that the abbreviation table names. Abbreviations within
    abbreviations are followed three levels down.

    If memory ends before the string does, the codes up to there still count:
    a fault inside one of their abbreviations comes first. -/

namespace ZMachine.Text

/-- The words of a string in memory, and the address after the last of them or
    the fault that cuts the string short. -/
structure Extent where
  words : List UInt16
  stop : Except Fault Nat

namespace Extent

/-- The extent of the string at an address, followed for at most `fuel` words. -/
def ofMemory (m : Memory) : (fuel : Nat) → (a : Nat) → Extent
  | 0, a => ⟨[], .error (m.outside a 2)⟩
  | fuel + 1, a =>
      match m.wordAt a with
      | .error e => ⟨[], .error e⟩
      | .ok w =>
          if isLast w then ⟨[w], .ok (a + 2)⟩
          else
            let rest := ofMemory m fuel (a + 2)
            ⟨w :: rest.words, rest.stop⟩

/-- The extent of the string at an address. No string has more words than memory has bytes. -/
def starting (m : Memory) (a : Nat) : Extent := ofMemory m (m.size + 1) a

/-- The codes of the words. -/
def codes (x : Extent) : List Code := x.words.flatMap Text.codes

end Extent

/-- How many strings may be open at once: the outermost one and three
    abbreviations nested in it. -/
def maxNesting : Nat := 4

/-- The text of the string at an address and the address after the string.
    Abbreviations are looked up in the table at `table`, and `nesting` strings
    may be open at once. -/
def decodeNested (m : Memory) (table : Nat) : (nesting : Nat) → (a : Nat) →
    Except Fault (List Char × Nat)
  | 0, a => .error (.abbreviationDepth a)
  | nesting + 1, a => do
      let x := Extent.starting m a
      let parts ← (Symbol.spell x.codes).mapM fun
        | .char c => pure [c]
        | .abbreviation entry => do
            let packed ← m.wordAt (table + 2 * entry)
            let (text, _) ← decodeNested m table nesting (unpack packed)
            pure text
        | .fault e => .error e
      let stop ← x.stop
      pure (parts.flatten, stop)

/-- The text of the string at an address and the address after the string. -/
def decode (m : Memory) (table : Nat) (a : Nat) : Except Fault (String × Nat) := do
  let (text, stop) ← decodeNested m table maxNesting a
  pure (String.ofList text, stop)

end ZMachine.Text
