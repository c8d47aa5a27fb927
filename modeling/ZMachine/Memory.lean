import ZMachine.Action
import ZMachine.Word

/-! # Story memory

    The bytes of a story, addressed from zero. Values of more than one byte
    are big-endian. Every access names a range of addresses and succeeds
    exactly if the whole range lies in memory; nothing wraps around, and no
    access changes how many bytes there are. -/

namespace ZMachine

/-- The byte address of a packed routine or string address. -/
def unpack (packed : UInt16) : Nat := 2 * packed.toNat

/-- Whether a byte address can be written as a packed address. -/
def isPacked (address : Nat) : Bool := address % 2 == 0

/-- The bytes of a story. -/
structure Memory where
  bytes : Array UInt8
  deriving DecidableEq, Inhabited

namespace Memory

/-- The number of bytes. -/
def size (m : Memory) : Nat := m.bytes.size

/-- A memory without bytes. -/
def empty : Memory := ⟨#[]⟩

/-- The fault of an access that does not lie in memory. -/
def outside (m : Memory) (address width : Nat) : Fault :=
  .outOfBounds address width m.size

/-- The byte at an address. -/
def byteAt (m : Memory) (a : Nat) : Except Fault UInt8 :=
  if h : a < m.bytes.size then .ok m.bytes[a] else .error (m.outside a 1)

/-- The word at an address. -/
def wordAt (m : Memory) (a : Nat) : Except Fault UInt16 :=
  if h : a + 1 < m.bytes.size then .ok (word m.bytes[a] m.bytes[a + 1])
  else .error (m.outside a 2)

/-- The double word at an address. -/
def longAt (m : Memory) (a : Nat) : Except Fault UInt32 :=
  if h : a + 3 < m.bytes.size then
    .ok (UInt32.ofNat (65536 * (word m.bytes[a] m.bytes[a + 1]).toNat
      + (word m.bytes[a + 2] m.bytes[a + 3]).toNat))
  else .error (m.outside a 4)

/-- The bytes of a range. -/
def slice (m : Memory) (a length : Nat) : Except Fault (List UInt8) :=
  if a + length ≤ m.size then .ok (m.bytes.extract a (a + length)).toList
  else .error (m.outside a length)

/-- Puts a byte at an address; an address past the end changes nothing. -/
def setByte (m : Memory) (a : Nat) (v : UInt8) : Memory :=
  ⟨m.bytes.setIfInBounds a v⟩

/-- Writes a byte. -/
def writeByte (a : Nat) (v : UInt8) : Action Memory Unit := fun m =>
  if a + 1 ≤ m.size then (.ok (), m.setByte a v) else (.error (m.outside a 1), m)

/-- Writes a word. -/
def writeWord (a : Nat) (v : UInt16) : Action Memory Unit := fun m =>
  if a + 2 ≤ m.size then (.ok (), (m.setByte a (highByte v)).setByte (a + 1) (lowByte v))
  else (.error (m.outside a 2), m)

/-- Writes bytes one after another; those before the first that does not fit stay written. -/
def writeBytes (a : Nat) : List UInt8 → Action Memory Unit
  | [] => pure ()
  | b :: bs => do
      writeByte a b
      writeBytes (a + 1) bs

/-- Writes the same byte over a whole range. -/
def fill (a length : Nat) (v : UInt8) : Action Memory Unit := fun m =>
  if a + length ≤ m.size then
    (.ok (), ⟨m.bytes.extract 0 a ++ Array.replicate length v
      ++ m.bytes.extract (a + length) m.size⟩)
  else (.error (m.outside a length), m)

/-- Overwrites the start of memory with the bytes of an image. -/
def restorePrefix (image : Array UInt8) : Action Memory Unit := fun m =>
  if image.size ≤ m.size then (.ok (), ⟨image ++ m.bytes.extract image.size m.size⟩)
  else (.error (m.outside 0 image.size), m)

/-- A short description: the size alone. -/
def describe (m : Memory) : String :=
  "Memory(" ++ Numeral.address m.size ++ " bytes)"

end Memory

end ZMachine
