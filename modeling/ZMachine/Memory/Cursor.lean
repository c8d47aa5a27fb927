import ZMachine.Memory.Scan

/-! # Cursors

    A cursor is a memory together with a position in it. Reads and writes act
    at the position and move it by their width; peeks leave it alone. -/

namespace ZMachine

/-- A memory and a position in it. -/
structure Cursor where
  memory : Memory
  position : Nat := 0
  deriving DecidableEq

namespace Cursor

/-- Runs a scan from the position. -/
def scan {α : Type} (x : Scan α) : Action Cursor α := fun c =>
  match x c.memory c.position with
  | (r, a) => (r, { c with position := a })

/-- Looks at what `f` finds at the position. -/
def peek {α : Type} (f : Memory → Nat → Except Fault α) : Action Cursor α :=
  .ask fun c => f c.memory c.position

/-- Moves the position. -/
def seek (position : Nat) : Action Cursor Unit :=
  .change fun c => { c with position }

/-- Runs an action on the memory alone. -/
def onMemory {α : Type} (x : Action Memory α) : Action Cursor α := fun c =>
  match x c.memory with
  | (r, m) => (r, { c with memory := m })

/-- Runs a write at the position and moves on by `width` if it succeeds. -/
def write (x : Nat → Action Memory Unit) (width : Nat) : Action Cursor Unit := do
  let a ← .view Cursor.position
  onMemory (x a)
  seek (a + width)

/-- Writes a byte. -/
def writeByte (v : UInt8) : Action Cursor Unit := write (Memory.writeByte · v) 1

/-- Writes a word. -/
def writeWord (v : UInt16) : Action Cursor Unit := write (Memory.writeWord · v) 2

end Cursor

end ZMachine
