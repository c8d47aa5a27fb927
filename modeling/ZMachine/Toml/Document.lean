import ZMachine.Toml.Moment
import ZMachine.Toml.Number
import ZMachine.Toml.Table
import ZMachine.Toml.Text

/-! # Documents

    A document is a sequence of statements, one a line: a key with its value, or
    a header that says to which table the keys after it belong. -/

namespace ZMachine.Toml

open Text

/-- Reads a value that is neither an array nor a table. -/
def readScalar : Reader Value
  | 't' :: 'r' :: 'u' :: 'e' :: rest => some (.bool true, rest)
  | 'f' :: 'a' :: 'l' :: 's' :: 'e' :: rest => some (.bool false, rest)
  | '"' :: rest => (readString ('"' :: rest)).map fun (s, r) => (.string s, r)
  | '\'' :: rest => (readString ('\'' :: rest)).map fun (s, r) => (.string s, r)
  | cs => (readMoment cs).or (readNumber cs)

/-- Reads the elements of an array and the closing bracket; a comma may follow the last. -/
def readElements (item : Reader Value) : (fuel : Nat) → Reader (List Value)
  | 0, _ => none
  | fuel + 1, cs =>
      match skipLines cs with
      | ']' :: rest => some ([], rest)
      | cs => do
          let (v, rest) ← item cs
          match skipLines rest with
          | ',' :: rest => (readElements item fuel rest).map fun (vs, r) => (v :: vs, r)
          | ']' :: rest => pure ([v], rest)
          | _ => none

/-- Reads a key with its value. -/
def readPair (item : Reader Value) : Reader ((List String × String) × Value) := fun cs => do
  let (key, rest) ← readKey cs
  match rest with
  | '=' :: rest => do
      let (v, rest) ← item (skipBlanks rest)
      pure ((key, v), rest)
  | _ => none

/-- Reads the pairs between braces, at least one, and the closing brace, and adds them
    to a table. -/
def readPairs (item : Reader Value) : (fuel : Nat) → Entries → Reader Entries
  | 0, _, _ => none
  | fuel + 1, entries, cs => do
      let (((path, key), v), rest) ← readPair item cs
      let entries ← entries.addPair path key v .stated
      match skipBlanks rest with
      | ',' :: rest => readPairs item fuel entries rest
      | '\x7d' :: rest => pure (entries, rest)
      | _ => none

/-- Reads a value in which arrays and tables nest at most `depth` deep. -/
def readValue : (depth : Nat) → Reader Value
  | 0, cs => readScalar cs
  | depth + 1, '[' :: rest =>
      (readElements (readValue depth) (rest.length + 1) rest).map fun (vs, r) => (.array vs, r)
  | depth + 1, '\x7b' :: rest =>
      match skipBlanks rest with
      | '\x7d' :: rest => some (.table .closed [], rest)
      | rest =>
          (readPairs (readValue depth) rest.length [] rest).map
            fun (entries, r) => (.table .closed entries, r)
  | _ + 1, cs => readScalar cs

/-- How deep arrays and tables may nest in a value. -/
def maxDepth : Nat := 79

/-- A statement. -/
inductive Statement where
  | pair (path : List String) (key : String) (v : Value)
  | table (path : List String) (key : String)
  | element (path : List String) (key : String)
  deriving Repr

/-- Reads a statement and the end of its line. -/
def readStatement : Reader Statement := fun cs => do
  let (statement, rest) ← match cs with
    | '[' :: '[' :: rest => do
        let ((path, key), rest) ← readKey rest
        match rest with
        | ']' :: ']' :: rest => pure (Statement.element path key, rest)
        | _ => none
    | '[' :: rest => do
        let ((path, key), rest) ← readKey rest
        match rest with
        | ']' :: rest => pure (Statement.table path key, rest)
        | _ => none
    | cs => do
        let (((path, key), v), rest) ← readPair (readValue maxDepth) cs
        pure (Statement.pair path key v, rest)
  let rest ← endLine? rest
  pure (statement, rest)

/-- Reads at most `fuel` statements to the end of the text. -/
def readStatements : (fuel : Nat) → List Char → Option (List Statement)
  | 0, _ => none
  | fuel + 1, cs =>
      match skipLines cs with
      | [] => some []
      | cs => do
          let (statement, rest) ← readStatement cs
          let statements ← readStatements fuel rest
          pure (statement :: statements)

/-- A document under way: its entries, and the path of the table that keys belong to. -/
structure Draft where
  root : Entries := []
  current : List String := []
  deriving Repr

namespace Draft

/-- Adds what a statement says. -/
def add (d : Draft) : Statement → Option Draft
  | .pair path key v => do
      let root ← Entries.modifyAt .implied (Entries.addPair path key v) d.current .stated d.root
      pure { d with root }
  | .table path key => do
      let root ← d.root.stateTable path key
      pure { root, current := path ++ [key] }
  | .element path key => do
      let root ← d.root.stateElement path key
      pure { root, current := path ++ [key] }

end Draft

/-- A text without a byte order mark at its front. -/
def skipMark : List Char → List Char
  | '\ufeff' :: rest => rest
  | cs => cs

/-- The entries of the document that a text stands for. -/
def parse? (text : String) : Option Entries := do
  let cs := skipMark text.toList
  let statements ← readStatements (cs.length + 1) cs
  let draft ← statements.foldlM Draft.add {}
  pure draft.root

end ZMachine.Toml
