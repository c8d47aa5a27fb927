import ZMachine.Dictionary

/-! # Tokens

    A line of input is cut into words. Spaces lie between words, and each
    separator is a word of its own, also if it is a space. Positions and
    lengths count the bytes of the line in UTF-8. -/

namespace ZMachine

/-- A word of a line and the position at which it starts. -/
structure Token where
  text : String
  position : Nat
  deriving DecidableEq, Repr

namespace Token

/-- The number of bytes of a list of characters. -/
def byteLength (cs : List Char) : Nat := cs.foldr (fun c n => c.utf8Size + n) 0

/-- The token of a word that ends at a position, given in reverse; no token if it is empty. -/
def ofReversed (wordReversed : List Char) (stop : Nat) : List Token :=
  match wordReversed with
  | [] => []
  | c :: cs =>
      [{ text := String.ofList (c :: cs).reverse, position := stop - byteLength (c :: cs) }]

/-- The tokens of the rest of a line, with the word that has been begun in reverse
    and the position of the rest. -/
def splitFrom (isSeparator : Char → Bool) (begun : List Char) (position : Nat) :
    List Char → List Token
  | [] => ofReversed begun position
  | c :: cs =>
      if isSeparator c then
        ofReversed begun position ++ { text := String.singleton c, position }
          :: splitFrom isSeparator [] (position + c.utf8Size) cs
      else if c = ' ' then
        ofReversed begun position ++ splitFrom isSeparator [] (position + c.utf8Size) cs
      else
        splitFrom isSeparator (c :: begun) (position + c.utf8Size) cs

/-- The characters of a text from a byte position on, if a character starts or the text ends
    there. -/
def dropBytes? : Nat → List Char → Option (List Char)
  | 0, cs => some cs
  | _ + 1, [] => none
  | n + 1, c :: cs =>
      if c.utf8Size ≤ n + 1 then dropBytes? (n + 1 - c.utf8Size) cs else none

/-- The characters that take up the first bytes of a text, if they are whole. -/
def takeBytes? : Nat → List Char → Option (List Char)
  | 0, _ => some []
  | _ + 1, [] => none
  | n + 1, c :: cs =>
      if c.utf8Size ≤ n + 1 then (takeBytes? (n + 1 - c.utf8Size) cs).map (c :: ·) else none

/-- Cuts the text of a token out of its line. -/
def cut (line : String) (t : Token) : Except Fault Token :=
  match (dropBytes? t.position line.toList).bind (takeBytes? t.text.utf8ByteSize) with
  | some cs => .ok { t with text := String.ofList cs }
  | none => .error (.defect .tokenSlice)

end Token

namespace Dictionary

/-- Whether a character is a word of its own. -/
def isSeparator (d : Dictionary) (c : Char) : Bool :=
  c.toNat < 128 && d.separators.contains (UInt8.ofNat c.toNat)

/-- The tokens of a line. -/
def split (d : Dictionary) (line : String) : List Token :=
  Token.splitFrom d.isSeparator [] 0 line.toList

/-- The tokens of a line, cut out of it. -/
def cutLine (d : Dictionary) (line : String) : Except Fault (List Token) :=
  (d.split line).mapM (Token.cut line)

end Dictionary

end ZMachine
