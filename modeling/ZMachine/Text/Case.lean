/-! # Lower case

    The lower-case form of a text, as far as story text can tell: a story
    knows the ASCII characters one by one and all others only by their number.
    So besides the ASCII capitals only two characters matter, the Kelvin sign,
    whose lower-case form is ASCII, and the capital i with a dot, whose
    lower-case form has two characters. -/

namespace ZMachine.Text

/-- The lower-case form of a character. -/
def lowerChar (c : Char) : List Char :=
  if 'A' ≤ c ∧ c ≤ 'Z' then [Char.ofNat (c.toNat + 32)]
  else if c = '\u212a' then ['k']
  else if c = '\u0130' then ['i', '\u0307']
  else [c]

/-- The lower-case form of a text. -/
def lower (s : String) : List Char :=
  s.toList.flatMap lowerChar

end ZMachine.Text
