/-! # Words

    A word is 16 bits. It is made of two bytes, and it stands for a number
    from 0 up or, in two's complement, for a signed number. Arithmetic on words
    wraps around. -/

namespace ZMachine

/-- The word with the given high and low bytes. -/
def word (high low : UInt8) : UInt16 :=
  UInt16.ofNat (256 * high.toNat + low.toNat)

/-- The high byte of a word. -/
def highByte (w : UInt16) : UInt8 := UInt8.ofNat (w.toNat / 256)

/-- The low byte of a word. -/
def lowByte (w : UInt16) : UInt8 := UInt8.ofNat w.toNat

/-- A word as a signed number. -/
def signed (w : UInt16) : Int :=
  if w.toNat < 0x8000 then w.toNat else (w.toNat : Int) - 0x10000

/-- The word that stands for an integer, up to a multiple of 2 ^ 16. -/
def ofSigned (i : Int) : UInt16 := UInt16.ofNat (i % 0x10000).toNat

end ZMachine
