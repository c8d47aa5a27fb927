import ZMachine.Json.Value

/-! # Reading JSON

    The grammar is strict: blanks are spaces, tabs, line feeds and carriage
    returns; strings hold no raw control characters and no halves of surrogate
    pairs; a number may not be too large for double precision; arrays and
    objects nest to a limited depth. -/

namespace ZMachine.Json

open Text

/-- Whether a character may stand between tokens. -/
def isBlank (c : Char) : Bool := c == ' ' || c == '\t' || c == '\n' || c == '\r'

/-- A text without the blanks at its front. -/
def skipBlanks (cs : List Char) : List Char := cs.dropWhile isBlank

/-! ## Strings -/

/-- The character that a letter after a backslash stands for. -/
def escape? (c : Char) : Option Char :=
  match c with
  | '"' => some '"'
  | '\\' => some '\\'
  | '/' => some '/'
  | 'b' => some '\x08'
  | 'f' => some '\x0c'
  | 'n' => some '\n'
  | 'r' => some '\r'
  | 't' => some '\t'
  | _ => none

/-- Reads a string after its opening quotation mark, to the closing one. -/
def readString : Reader (List Char)
  | [] => none
  | '"' :: rest => some ([], rest)
  | '\\' :: 'u' :: a :: b :: c :: d :: rest =>
      match digitsBelow? 16 0x10000 [a, b, c, d] with
      | none => none
      | some n =>
          if 0xDC00 ≤ n ∧ n < 0xE000 then none
          else if 0xD800 ≤ n ∧ n < 0xDC00 then
            match rest with
            | '\\' :: 'u' :: e :: f :: g :: h :: rest =>
                match digitsBelow? 16 0x10000 [e, f, g, h] with
                | none => none
                | some low =>
                    if 0xDC00 ≤ low ∧ low < 0xE000 then
                      (readString rest).map
                        (prepend (Char.ofNat (0x10000 + 0x400 * (n - 0xD800) + (low - 0xDC00))))
                    else none
            | _ => none
          else (readString rest).map (prepend (Char.ofNat n))
  | '\\' :: c :: rest =>
      match escape? c with
      | none => none
      | some e => (readString rest).map (prepend e)
  | c :: rest =>
      if c = '\\' ∨ c.toNat < 32 then none
      else (readString rest).map (prepend c)

/-! ## Values -/

/-- Reads a value that is neither an array nor an object. -/
def readScalar : Reader Value
  | 'n' :: 'u' :: 'l' :: 'l' :: rest => some (.null, rest)
  | 't' :: 'r' :: 'u' :: 'e' :: rest => some (.bool true, rest)
  | 'f' :: 'a' :: 'l' :: 's' :: 'e' :: rest => some (.bool false, rest)
  | '"' :: rest => (readString rest).map fun (cs, r) => (.string (String.ofList cs), r)
  | cs => (readNumber cs).map fun (n, r) => (.number n, r)

/-- Reads the elements of an array, at least one, and the closing bracket. -/
def readElements (item : Reader Value) : (fuel : Nat) → Reader (List Value)
  | 0, _ => none
  | fuel + 1, cs =>
      match item cs with
      | none => none
      | some (v, rest) =>
          match skipBlanks rest with
          | ',' :: rest => (readElements item fuel rest).map fun (vs, r) => (v :: vs, r)
          | ']' :: rest => some ([v], rest)
          | _ => none

/-- Reads the members of an object, at least one, and the closing brace. -/
def readMembers (item : Reader Value) : (fuel : Nat) → Reader (List (String × Value))
  | 0, _ => none
  | fuel + 1, cs =>
      match skipBlanks cs with
      | '"' :: rest =>
          match readString rest with
          | none => none
          | some (key, rest) =>
              match skipBlanks rest with
              | ':' :: rest =>
                  match item rest with
                  | none => none
                  | some (v, rest) =>
                      let member := (String.ofList key, v)
                      match skipBlanks rest with
                      | ',' :: rest =>
                          (readMembers item fuel rest).map fun (ms, r) => (member :: ms, r)
                      | '\x7d' :: rest => some ([member], rest)
                      | _ => none
              | _ => none
      | _ => none

/-- Reads a value in which arrays and objects nest at most `depth` deep. -/
def readValue : (depth : Nat) → Reader Value
  | 0, cs => readScalar (skipBlanks cs)
  | depth + 1, cs =>
      match skipBlanks cs with
      | '[' :: rest =>
          match skipBlanks rest with
          | ']' :: rest => some (.array [], rest)
          | rest =>
              (readElements (readValue depth) rest.length rest).map fun (vs, r) => (.array vs, r)
      | '\x7b' :: rest =>
          match skipBlanks rest with
          | '\x7d' :: rest => some (.object [], rest)
          | rest =>
              (readMembers (readValue depth) rest.length rest).map fun (ms, r) => (.object ms, r)
      | cs => readScalar cs

/-- How deep arrays and objects may nest. -/
def maxDepth : Nat := 127

/-- The value that a whole text stands for. -/
def parse? (text : String) : Option Value :=
  match readValue maxDepth text.toList with
  | some (v, rest) => if (skipBlanks rest).isEmpty then some v else none
  | none => none

end ZMachine.Json
