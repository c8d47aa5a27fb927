import ZMachine.Memory

/-! # Scans

    A scan reads memory front to back: it holds a position, each read takes
    the value at the position and moves past it, and a read that fails leaves
    the position where it was. -/

namespace ZMachine

/-- A computation that reads memory at a moving position. -/
abbrev Scan (α : Type) : Type := ReaderT Memory (Action Nat) α

namespace Scan

/-- Reads what `f` finds at the position and moves on by `width`. -/
def take {α : Type} (f : Memory → Nat → Except Fault α) (width : Nat) : Scan α := fun m a =>
  match f m a with
  | .ok v => (.ok v, a + width)
  | .error e => (.error e, a)

/-- Yields the value of a result, or fails with its fault. -/
def ofExcept {α : Type} (r : Except Fault α) : Scan α := fun _ => .ofExcept r

/-- The position. -/
def position : Scan Nat := fun _ a => (.ok a, a)

/-- Reads a byte. -/
def byte : Scan UInt8 := take Memory.byteAt 1

/-- Reads a word. -/
def word : Scan UInt16 := take Memory.wordAt 2

/-- Reads a double word. -/
def long : Scan UInt32 := take Memory.longAt 4

/-- Reads `n` words. -/
def words : Nat → Scan (List UInt16)
  | 0 => pure []
  | n + 1 => do
      let w ← word
      let ws ← words n
      pure (w :: ws)

end Scan

end ZMachine
