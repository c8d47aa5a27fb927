import ZMachine.Checked
import ZMachine.Memory

/-! # Codes and alphabets

    A Z-string is written in five-bit codes, three to a word. Codes from 6 up
    stand for a character of one of three alphabets of 26 characters; the first
    place of the third alphabet stands for no character but starts an escape. -/

namespace ZMachine.Text

/-- A five-bit code. -/
abbrev Code := Fin 32

/-- The code in the low five bits of a number. -/
def Code.ofNat (n : Nat) : Code := Fin.ofNat 32 n

/-- The three alphabets. -/
inductive Alphabet where
  | lower
  | upper
  | punctuation
  deriving DecidableEq, Repr

namespace Alphabet

/-- The characters of an alphabet, in the order of their codes. -/
def characters : Alphabet → List Char
  | lower => "abcdefghijklmnopqrstuvwxyz".toList
  | upper => "ABCDEFGHIJKLMNOPQRSTUVWXYZ".toList
  | punctuation => " \n0123456789.,!?_#'\"/\\-:()".toList

/-- The code of the first character of every alphabet. -/
def firstCode : Nat := 6

theorem length_characters (a : Alphabet) : a.characters.length = 26 := by
  cases a <;> decide

/-- The character that a code from 6 up stands for. -/
def character (a : Alphabet) (code : Code) (h : firstCode ≤ code.val) : Char :=
  a.characters.get ⟨code.val - firstCode, by
    have := code.isLt
    rw [length_characters]
    unfold firstCode at h ⊢
    omega⟩

/-- Looks a code up in an alphabet. -/
def lookup (a : Alphabet) (code : Nat) : Except Fault Char := do
  let i ← Checked.sub .alphabetIndex code firstCode
  Checked.index .alphabetIndex a.characters i

/-- The alphabet that a shift code selects, counted from the code before the first shift. -/
def ofShift (code : Nat) : Except Fault Alphabet := do
  let i ← Checked.sub .alphabetIndex code 3
  Checked.index .alphabetIndex [lower, upper, punctuation] i

/-- The place of a character in an alphabet. -/
def place? (a : Alphabet) (c : Char) : Option Nat :=
  a.characters.findIdx? (· == c)

end Alphabet

/-- Whether a word is the last one of its string. -/
def isLast (w : UInt16) : Bool := w.toNat / 32768 == 1

/-- The three codes of a word, first to last. -/
def codes (w : UInt16) : List Code :=
  [Code.ofNat (w.toNat / 1024), Code.ofNat (w.toNat / 32), Code.ofNat w.toNat]

/-- The character of a number in the story's character set; numbers without a
    printable character give a question mark. -/
def zscii (value : Nat) : Char :=
  if value = 13 then '\n'
  else if 32 ≤ value ∧ value ≤ 126 then Char.ofNat value
  else '?'

end ZMachine.Text
