import ZMachine.Dictionary.Parse
import ZMachine.Machine.Output

/-! # Input

    A line of input is stored in lower case in a text buffer, as far as it has
    room, and its words go into a parse buffer. The status line is shown before
    a line is read. -/

namespace ZMachine

namespace Machine

/-- The characters of a line as a text buffer with room for `room` of them keeps
    them; what is not printable ASCII becomes a question mark. -/
def storedText (line : String) (room : Nat) : List Char :=
  ((Text.lower line).map fun c => if ' ' ≤ c ∧ c ≤ '~' then c else '?').take room

/-- Stores a line in the text buffer at `text`, whose first byte gives its size,
    and its words in the parse buffer at `parse`. -/
def storeLine (d : Dictionary) (line : String) (text parse : Nat) : Action Memory Unit := do
  let size ← .ask (·.byteAt text)
  let stored := storedText line (size.toNat - 1)
  Memory.writeBytes (text + 1) (stored.map (fun c => UInt8.ofNat c.toNat) ++ [0])
  d.tokenise (String.ofList stored) parse

end Machine

namespace Session

variable {δ : Type} [Device δ]

/-- Reads a line into a text buffer and a parse buffer. -/
def readLine (text parse : UInt16) : Action (Session δ) Unit := do
  showStatus
  let line ← onDevice Device.readLine
  onMachine do
    let story ← .view Machine.story
    Machine.onMemory (Machine.storeLine story.dictionary line text.toNat parse.toNat)

end Session

end ZMachine
