import ZMachine.Checked
import ZMachine.Memory

/-! # Story header

    The first 64 bytes of a story say where its parts are. Only version 3
    stories are read. -/

namespace ZMachine

/-- What the header of a story says. -/
structure Header where
  version : UInt8
  flags : UInt8
  release : UInt16
  highMemory : UInt16
  initialPc : UInt16
  dictionary : UInt16
  objects : UInt16
  globals : UInt16
  staticMemory : UInt16
  /-- Six characters, usually the date of compilation. -/
  serial : String
  abbreviations : UInt16
  /-- The length of the story file in bytes, or zero if it is not recorded. -/
  fileLength : Nat
  checksum : UInt16
  deriving DecidableEq, Repr, Inhabited

namespace Header

/-- The number of bytes in a header. -/
def length : Nat := 64

/-- What `read` finds in `width` bytes of an image, which must have them. -/
def field {α : Type} (image : Memory) (place width : Nat)
    (read : Memory → Nat → Except Fault α) : Except Fault α := do
  Checked.require .headerIndex (place + width ≤ image.size)
  read image place

/-- Reads the header of a story image. -/
def ofImage (image : Memory) : Except Fault Header := do
  if image.size < length then
    .error (.storyTooShort image.size)
  else
    let byte (place : Nat) := field image place 1 Memory.byteAt
    let word (place : Nat) := field image place 2 Memory.wordAt
    let version ← byte 0
    if version = 3 then
      let flags ← byte 1
      let release ← word 2
      let highMemory ← word 4
      let initialPc ← word 6
      let dictionary ← word 8
      let objects ← word 10
      let globals ← word 12
      let staticMemory ← word 14
      let serial ← field image 18 6 (Memory.slice · · 6)
      let abbreviations ← word 24
      let halfLength ← word 26
      let checksum ← word 28
      .ok {
        version, flags, release, highMemory, initialPc, dictionary, objects, globals,
        staticMemory, abbreviations, checksum
        serial := String.ofList (serial.map fun b => Char.ofNat b.toNat)
        fileLength := 2 * halfLength.toNat }
    else
      .error (.unsupportedVersion version)

/-- Whether the status line shows the time and not score and moves. -/
def isTimeGame (h : Header) : Bool := h.flags &&& 2 != 0

open Numeral in
/-- The header in three lines. -/
def describe (h : Header) : String :=
  "v" ++ decimal '0' 1 h.version.toNat ++ " release " ++ decimal '0' 1 h.release.toNat
    ++ " serial " ++ h.serial ++ (if h.isTimeGame then " (time)\n" else " (score)\n")
    ++ "pc " ++ address h.initialPc.toNat ++ " dictionary " ++ address h.dictionary.toNat
    ++ " objects " ++ address h.objects.toNat ++ " globals " ++ address h.globals.toNat
    ++ " abbreviations " ++ address h.abbreviations.toNat ++ "\n"
    ++ "static " ++ address h.staticMemory.toNat ++ " high " ++ address h.highMemory.toNat
    ++ " length 0x" ++ hex 1 h.fileLength ++ " checksum " ++ address h.checksum.toNat ++ "\n"

end Header

end ZMachine
