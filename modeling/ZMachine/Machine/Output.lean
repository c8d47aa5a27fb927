import ZMachine.Machine.Control

/-! # Output

    Printed text goes to the innermost open table if there is one, and
    otherwise to the screen if that is on. A table in memory starts with a word
    that counts the characters after it. -/

namespace ZMachine

namespace Machine

/-- The byte of a character in a table: a line feed is 13, and characters
    outside ASCII are question marks. -/
def tableByte (c : Char) : UInt8 :=
  if c = '\n' then 13
  else if c.toNat < 128 then UInt8.ofNat c.toNat
  else 63

/-- Appends text to the table at an address. -/
def appendText (table : Nat) (text : String) : Action Memory Unit := do
  let count ← .ask (·.wordAt table)
  let start := table + 2 + count.toNat
  Memory.writeBytes start (text.toList.map tableByte)
  let written ← .ofExcept (Checked.sub .tableEnd (start + text.length) (table + 2))
  Memory.writeWord table (UInt16.ofNat written)

/-- Opens a table: it becomes empty and the innermost one. -/
def openTable (table : Nat) : Action Machine Unit := do
  onMemory (Memory.writeWord table 0)
  .change fun m => { m with streams := { m.streams with tables := table :: m.streams.tables } }

/-- Closes the innermost table, if one is open. -/
def closeTable : Action Machine Unit :=
  .change fun m => { m with streams := { m.streams with tables := m.streams.tables.tail } }

/-- Turns the screen on or off. -/
def setScreen (on : Bool) : Action Machine Unit :=
  .change fun m => { m with streams := { m.streams with screen := on } }

/-- Selects output streams: 1 and -1 turn the screen on and off, 3 and -3 open
    and close a table, and other numbers do nothing. -/
def selectStream (operands : List UInt16) : Action Machine Unit :=
  match operands with
  | [] => .fail (.operandCount VarOp.outputStream.name "1 or 2" 0)
  | stream :: rest =>
      match signed stream with
      | 1 => setScreen true
      | -1 => setScreen false
      | 3 =>
          match rest with
          | [] => .fail (.operandCount VarOp.outputStream.name "2" 1)
          | table :: _ => openTable table.toNat
      | -3 => closeTable
      | _ => pure ()

/-- The numbers of the variables that hold the location, the score or the hours,
    and the moves or the minutes. -/
def locationVariable : UInt8 := 16

@[inherit_doc locationVariable]
def scoreVariable : UInt8 := 17

@[inherit_doc locationVariable]
def movesVariable : UInt8 := 18

/-- The right side of the status line. -/
def statusText (isTime : Bool) (first second : UInt16) : String :=
  if isTime then
    Numeral.decimal '0' 1 first.toNat ++ ":" ++ Numeral.decimal '0' 2 second.toNat
  else
    "Score: " ++ Numeral.integer (signed first) ++ "  Moves: "
      ++ Numeral.decimal '0' 1 second.toNat

/-- The two sides of the status line. -/
def status : Action Machine (String × String) := do
  let location ← readVariable locationVariable
  let story ← .view Machine.story
  let first ← readVariable scoreVariable
  let second ← readVariable movesVariable
  pure ((story.name? location).getD "", statusText story.header.isTimeGame first second)

end Machine

namespace Session

variable {δ : Type} [Device δ]

/-- Prints a text. -/
def output (text : String) : Action (Session δ) Unit := do
  match ← onMachine (.view Machine.streams) with
  | ⟨_, table :: _⟩ => onMachine (Machine.onMemory (Machine.appendText table text))
  | ⟨true, []⟩ => onDevice (Device.print text)
  | ⟨false, []⟩ => pure ()

/-- Prints the string at an address. -/
def outputAt (a : Nat) : Action (Session δ) Unit := do
  let (text, _) ← onMachine
    (.ask fun m => Text.decode m.memory m.story.header.abbreviations.toNat a)
  output text

/-- The string at the pc, which moves past it. -/
def inlineText : Action Machine String := fun m =>
  match Text.decode m.memory m.story.header.abbreviations.toNat m.pc with
  | .ok (text, stop) => (.ok text, { m with pc := stop })
  | .error e => (.error e, m)

/-- Prints the string at the pc. -/
def outputInline : Action (Session δ) Unit := do
  let text ← onMachine inlineText
  output text

/-- Prints the short name of an object. -/
def outputName (o : UInt16) : Action (Session δ) Unit := do
  match ← onMachine (.view fun m => m.story.name? o) with
  | some name => output name
  | none => .fail (.invalidObject o)

/-- Shows the status line. -/
def showStatus : Action (Session δ) Unit := do
  let (location, right) ← onMachine Machine.status
  onDevice (Device.showStatus location right)

end Session

end ZMachine
