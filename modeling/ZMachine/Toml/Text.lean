import ZMachine.Toml.Blank

/-! # Strings and keys

    A string stands between quotation marks, where backslashes escape, or
    between apostrophes, where nothing does. Three of either let a string go
    over several lines: a line end right after the opening is dropped, line ends
    are kept as line feeds, and a backslash at the end of a line drops all blanks
    and line ends up to the next character. Up to two of the marks may stand
    inside such a string, also at its end. -/

namespace ZMachine.Toml

open Text

/-- The character with the number that hexadecimal digits give. -/
def scalar? (digits : List Char) : Option Char := do
  let n ← digitsBelow? 16 0x110000 digits
  if n.isValidChar then pure (Char.ofNat n) else none

/-- Reads an escape after its backslash. -/
def readEscape : Reader Char
  | 'b' :: rest => some ('\x08', rest)
  | 't' :: rest => some ('\t', rest)
  | 'n' :: rest => some ('\n', rest)
  | 'f' :: rest => some ('\x0c', rest)
  | 'r' :: rest => some ('\r', rest)
  | '"' :: rest => some ('"', rest)
  | '\\' :: rest => some ('\\', rest)
  | 'u' :: a :: b :: c :: d :: rest => (scalar? [a, b, c, d]).map (·, rest)
  | 'U' :: a :: b :: c :: d :: e :: f :: g :: h :: rest =>
      (scalar? [a, b, c, d, e, f, g, h]).map (·, rest)
  | _ => none

/-- Reads a string of one line with escapes, after its opening mark; each of at
    most `fuel` steps takes a character or an escape. -/
def readBasicFor : (fuel : Nat) → Reader (List Char)
  | 0, _ => none
  | _ + 1, [] => none
  | _ + 1, '"' :: rest => some ([], rest)
  | fuel + 1, '\\' :: rest => do
      let (c, rest) ← readEscape rest
      (readBasicFor fuel rest).map (prepend c)
  | fuel + 1, c :: rest =>
      if isPlain c then (readBasicFor fuel rest).map (prepend c) else none

/-- Reads a string of one line with escapes, after its opening mark. -/
def readBasic : Reader (List Char) := fun cs => readBasicFor cs.length cs

/-- Reads a string of one line without escapes, after its opening mark. -/
def readLiteral : Reader (List Char)
  | [] => none
  | '\'' :: rest => some ([], rest)
  | c :: rest => if isPlain c then (readLiteral rest).map (prepend c) else none

/-- Reads a string of several lines with escapes, after its opening; while `joining`,
    blanks and line ends are dropped. -/
def readBasicLinesFor : (fuel : Nat) → (joining : Bool) → Reader (List Char)
  | 0, _, _ => none
  | fuel + 1, joining, cs =>
      match newline? cs with
      | some rest =>
          if joining then readBasicLinesFor fuel true rest
          else (readBasicLinesFor fuel false rest).map (prepend '\n')
      | none =>
          match cs with
          | '"' :: '"' :: '"' :: '"' :: '"' :: rest => some (['"', '"'], rest)
          | '"' :: '"' :: '"' :: '"' :: rest => some (['"'], rest)
          | '"' :: '"' :: '"' :: rest => some ([], rest)
          | '\\' :: rest =>
              if (newline? (skipBlanks rest)).isSome then readBasicLinesFor fuel true rest
              else do
                let (c, rest) ← readEscape rest
                (readBasicLinesFor fuel false rest).map (prepend c)
          | c :: rest =>
              if joining && isBlank c then readBasicLinesFor fuel true rest
              else if isPlain c then (readBasicLinesFor fuel false rest).map (prepend c)
              else none
          | [] => none

/-- Reads a string of several lines without escapes, after its opening. -/
def readLiteralLinesFor : (fuel : Nat) → Reader (List Char)
  | 0, _ => none
  | fuel + 1, cs =>
      match newline? cs with
      | some rest => (readLiteralLinesFor fuel rest).map (prepend '\n')
      | none =>
          match cs with
          | '\'' :: '\'' :: '\'' :: '\'' :: '\'' :: rest => some (['\'', '\''], rest)
          | '\'' :: '\'' :: '\'' :: '\'' :: rest => some (['\''], rest)
          | '\'' :: '\'' :: '\'' :: rest => some ([], rest)
          | c :: rest =>
              if isPlain c then (readLiteralLinesFor fuel rest).map (prepend c) else none
          | [] => none

/-- Reads a string of any kind. -/
def readString : Reader String := fun cs => do
  let (text, rest) ← match cs with
    | '"' :: '"' :: '"' :: rest =>
        readBasicLinesFor (rest.length + 1) false ((newline? rest).getD rest)
    | '"' :: rest => readBasic rest
    | '\'' :: '\'' :: '\'' :: rest =>
        readLiteralLinesFor (rest.length + 1) ((newline? rest).getD rest)
    | '\'' :: rest => readLiteral rest
    | _ => none
  pure (String.ofList text, rest)

/-! ## Keys -/

/-- Whether a character may stand in a key without quotation marks. -/
def isBare (c : Char) : Bool := c.isAlphanum || c == '_' || c == '-'

/-- Reads one part of a key. -/
def readKeyPart : Reader String
  | '"' :: rest => (readBasic rest).map fun (cs, r) => (String.ofList cs, r)
  | '\'' :: rest => (readLiteral rest).map fun (cs, r) => (String.ofList cs, r)
  | cs =>
      match cs.span isBare with
      | ([], _) => none
      | (part, rest) => some (String.ofList part, rest)

/-- How many parts a key may have. -/
def maxParts : Nat := 79

/-- Reads the parts of a key, at most `fuel`, with the blanks around them; the last part
    is given apart. -/
def readKeyFor : (fuel : Nat) → Reader (List String × String)
  | 0, _ => none
  | fuel + 1, cs => do
      let (part, rest) ← readKeyPart (skipBlanks cs)
      match skipBlanks rest with
      | '.' :: rest => do
          let ((path, key), rest) ← readKeyFor fuel rest
          pure ((part :: path, key), rest)
      | rest => pure (([], part), rest)

/-- Reads a key. -/
def readKey : Reader (List String × String) := readKeyFor maxParts

end ZMachine.Toml
