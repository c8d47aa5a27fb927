import ZMachine.Text.Reader

/-! # Blanks, comments and line ends -/

namespace ZMachine.Toml

/-- Whether a character is a blank within a line. -/
def isBlank (c : Char) : Bool := c == ' ' || c == '\t'

/-- Whether a character may stand in a comment: a tab or no control character. -/
def isPlain (c : Char) : Bool :=
  c == '\t' || (decide (0x20 ≤ c.toNat) && c.toNat != 0x7f)

/-- A text without the blanks at its front. -/
def skipBlanks (cs : List Char) : List Char := cs.dropWhile isBlank

/-- A text without the comment at its front, if there is one. -/
def skipComment : List Char → List Char
  | '#' :: rest => rest.dropWhile isPlain
  | cs => cs

/-- A text without the line end that it starts with. -/
def newline? : List Char → Option (List Char)
  | '\n' :: rest => some rest
  | '\r' :: '\n' :: rest => some rest
  | _ => none

/-- The next line, if only blanks and a comment are left of this one. -/
def endLine? (cs : List Char) : Option (List Char) :=
  match skipComment (skipBlanks cs) with
  | [] => some []
  | cs => newline? cs

/-- Skips blanks, comments and line ends; `inComment` says whether a comment has begun. -/
def skipLinesFrom : (inComment : Bool) → List Char → List Char
  | _, [] => []
  | _, '\n' :: rest => skipLinesFrom false rest
  | _, '\r' :: '\n' :: rest => skipLinesFrom false rest
  | true, c :: rest => if isPlain c then skipLinesFrom true rest else c :: rest
  | false, c :: rest =>
      if isBlank c then skipLinesFrom false rest
      else if c = '#' then skipLinesFrom true rest
      else c :: rest

/-- A text without the blanks, comments and line ends at its front. -/
def skipLines (cs : List Char) : List Char := skipLinesFrom false cs

end ZMachine.Toml
