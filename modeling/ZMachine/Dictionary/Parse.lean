import ZMachine.Dictionary.Token

/-! # Parse buffers

    The first byte of a parse buffer says how many words it has room for. The
    second receives the number of words of a line, and four bytes for each word
    follow: the address of its dictionary entry, its length, and its position
    in the text buffer, which starts at 1. -/

namespace ZMachine.Dictionary

/-- Writes the entries of tokens from an address on. -/
def writeEntries (d : Dictionary) (a : Nat) : List Token → Action Memory Unit
  | [] => pure ()
  | t :: rest => do
      let found ← .ask (d.lookup · t.text)
      Memory.writeWord a found
      Memory.writeByte (a + 2) (UInt8.ofNat t.text.utf8ByteSize)
      if t.position % 256 = 255 then .fail (.defect .tokenPosition)
      Memory.writeByte (a + 3) (UInt8.ofNat (t.position % 256 + 1))
      writeEntries d (a + 4) rest

/-- Fills a parse buffer with the tokens of a line, as far as there is room. -/
def tokenise (d : Dictionary) (line : String) (buffer : Nat) : Action Memory Unit := do
  let room ← .ask (·.byteAt buffer)
  let all ← .ofExcept (d.cutLine line)
  let tokens := all.take room.toNat
  Memory.writeByte (buffer + 1) (UInt8.ofNat tokens.length)
  d.writeEntries (buffer + 2) tokens

end ZMachine.Dictionary
