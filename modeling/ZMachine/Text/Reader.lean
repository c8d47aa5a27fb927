/-! # Readers

    A reader takes something from the front of a text and yields it with the
    rest of the text, or refuses the text. -/

namespace ZMachine.Text

/-- Takes something from the front of a text. -/
abbrev Reader (α : Type) := List Char → Option (α × List Char)

/-- Puts a character in front of what has been read. -/
def prepend (c : Char) (read : List Char × List Char) : List Char × List Char :=
  (c :: read.1, read.2)

/-- The value of a hexadecimal digit. -/
def hexDigit? (c : Char) : Option Nat :=
  if '0' ≤ c ∧ c ≤ '9' then some (c.toNat - '0'.toNat)
  else if 'a' ≤ c ∧ c ≤ 'f' then some (c.toNat - 'a'.toNat + 10)
  else if 'A' ≤ c ∧ c ≤ 'F' then some (c.toNat - 'A'.toNat + 10)
  else none

/-- The value of a digit in a base of at most sixteen. -/
def digit? (base : Nat) (c : Char) : Option Nat :=
  (hexDigit? c).filter (· < base)

/-- The value of digits in a base of at most sixteen, if it lies below a limit. A value
    that has reached the limit only grows with further digits. -/
def digitsBelow? (base limit : Nat) (ds : List Char) : Option Nat :=
  ds.foldlM (fun n c => do
    let d ← digit? base c
    if base * n + d < limit then pure (base * n + d) else none) 0

/-- The value of decimal digits. -/
def decimalValue (ds : List Char) : Nat :=
  ds.foldl (fun n c => 10 * n + (c.toNat - '0'.toNat)) 0

/-- The value of decimal digits, or a cap if that is less. -/
def cappedValue (cap : Nat) (ds : List Char) : Nat :=
  ds.foldl (fun n c => min cap (10 * n + (c.toNat - '0'.toNat))) 0

/-- The number below a limit that a word stands for: decimal digits, perhaps after a plus sign. -/
def unsigned? (limit : Nat) (word : String) : Option Nat :=
  let digits := match word.toList with
    | '+' :: rest => rest
    | cs => cs
  if digits.isEmpty then none else digitsBelow? 10 limit digits

end ZMachine.Text
