import ZMachine.Numeral
import ZMachine.Opcode

/-! # Faults

    Everything that can go wrong, as a cause with the data that belongs to it.
    `Fault.message` is the one place that puts a cause into words. -/

namespace ZMachine

/-- What can go wrong on a byte stream. -/
inductive StreamFault where
  | endOfStream
  | wouldBlock
  | brokenPipe
  | invalidText
  deriving DecidableEq, Repr

namespace StreamFault

/-- The text of a stream fault. -/
def message : StreamFault → String
  | endOfStream => "failed to fill whole buffer"
  | wouldBlock => "operation would block"
  | brokenPipe => "broken pipe"
  | invalidText => "stream did not contain valid UTF-8"

end StreamFault

/-- What can be wrong with a message on a framed channel. -/
inductive ProtocolFault where
  | tooLarge (size : Nat)
  | malformed
  | unexpected (description : String)
  deriving DecidableEq, Repr

namespace ProtocolFault

/-- The text of a protocol fault. -/
def message : ProtocolFault → String
  | tooLarge size => "frame of " ++ Numeral.decimal '0' 1 size ++ " bytes is too large"
  | malformed => "malformed frame"
  | unexpected description => "expected a text frame, got " ++ description

end ProtocolFault

/-- What can be wrong with settings and command line options. -/
inductive SettingsFault where
  | unreadable (path reason : String)
  | malformed
  | missingValue (option : String)
  | unknownProtocol (name : String)
  | badSeed (text : String)
  | unknownOption (name : String)
  deriving DecidableEq, Repr

namespace SettingsFault

/-- The text of a settings fault. -/
def message : SettingsFault → String
  | unreadable path reason => path ++ ": " ++ reason
  | malformed => "malformed settings"
  | missingValue option => option ++ " needs a value"
  | unknownProtocol name => "unknown protocol '" ++ name ++ "'"
  | badSeed text => "bad seed '" ++ text ++ "'"
  | unknownOption name => "unknown option '" ++ name ++ "'"

end SettingsFault

/-- A condition that the machine relies on. Each place that would be undefined
    without it raises a defect of its own instead, so that it can be said of
    every place whether a story can break it. -/
inductive Defect where
  /-- A field of the header lies outside the image. -/
  | headerIndex
  /-- The number of the first object exceeds that of an object. -/
  | objectNumber
  /-- The bit of an attribute lies outside the bytes for attributes. -/
  | attributeIndex
  /-- The number of the first default value exceeds that of a property. -/
  | defaultNumber
  /-- There is no size byte before the data of a property. -/
  | sizeAddress
  /-- A walk through memory left the 32-bit address space. -/
  | addressSpace
  /-- A code stands for no alphabet or for no place in one. -/
  | alphabetIndex
  /-- A code stands for no block of abbreviations. -/
  | abbreviationBlock
  /-- The text of a word is not a part of its line. -/
  | tokenSlice
  /-- A word starts too far into its line for a one-byte position. -/
  | tokenPosition
  /-- An instruction ends before it starts. -/
  | instructionSize
  /-- An instruction of the one-operand class came without its operand. -/
  | missingOperand
  /-- The number of the first global variable exceeds that of a global variable. -/
  | globalNumber
  /-- A local variable lies outside its frame. -/
  | localIndex
  /-- The values of a frame are fewer than its locals. -/
  | frameSlice
  /-- A table of printed text ends before its first character. -/
  | tableEnd
  /-- The bounds of what a restart restores are not in order. -/
  | headerBounds
  /-- What a restart restores is longer than the image. -/
  | imageSlice
  /-- The count of instructions does not fit into 64 bits. -/
  | instructionCount
  /-- No word of a keystream falls into the sampling zone. -/
  | keystreamExhausted
  deriving DecidableEq, Repr

/-- Why an operation failed. -/
inductive Fault where
  | outOfBounds (address width size : Nat)
  | oddRoutine (address : Nat)
  | tooManyLocals (address : Nat) (count : UInt8)
  | callStackUnderflow
  | stackUnderflow (routine : Nat)
  | localOutOfRange (number : UInt8) (count : Nat)
  | divisionByZero
  | moduloByZero
  | illegalOpcode (opClass : OpClass) (number : Nat) (address : Nat)
  | operandCount (name expected : String) (got : Nat)
  | invalidObject (number : UInt16)
  | missingProperty (object property : UInt16)
  | propertyNumber (object property : UInt16)
  | propertyLength (instruction : String) (object property : UInt16) (length : Nat)
  | abbreviationDepth (address : Nat)
  | wordTooLong (text : String)
  | storyTooShort (size : Nat)
  | unsupportedVersion (version : UInt8)
  | stream (cause : StreamFault)
  | protocol (cause : ProtocolFault)
  | settings (cause : SettingsFault)
  | defect (cause : Defect)
  deriving DecidableEq, Repr

namespace Fault

open Numeral in
/-- The text that reports a fault. -/
def message : Fault → String
  | outOfBounds a w n =>
      "memory access out of range: " ++ decimal '0' 1 w ++ " byte(s) at " ++ address a
        ++ ", memory size " ++ address n
  | oddRoutine a => "attempt to read routine at non packed address " ++ address a
  | tooManyLocals a n =>
      "routine at " ++ address a ++ " declares " ++ decimal '0' 1 n.toNat
        ++ " locals (max 15)"
  | callStackUnderflow => "call stack underflow"
  | stackUnderflow a => "evaluation stack underflow in routine at " ++ address a
  | localOutOfRange v n =>
      "local variable " ++ decimal '0' 1 v.toNat ++ " out of range: routine has "
        ++ decimal '0' 1 n ++ " locals"
  | divisionByZero => "division by zero"
  | moduloByZero => "modulo by zero"
  | illegalOpcode c n a =>
      "illegal opcode " ++ c.label ++ ":0x" ++ hex 2 n ++ " at " ++ address a
  | operandCount name expected got =>
      name ++ " expects " ++ expected ++ " operand(s), got " ++ decimal '0' 1 got
  | invalidObject o => "invalid object number " ++ decimal '0' 1 o.toNat
  | missingProperty o p =>
      "property " ++ decimal '0' 1 p.toNat ++ " not found on object "
        ++ decimal '0' 1 o.toNat
  | propertyNumber o p =>
      "invalid property: property " ++ decimal '0' 1 p.toNat ++ " on object "
        ++ decimal '0' 1 o.toNat
  | propertyLength i o p n =>
      "invalid property: " ++ i ++ " on property " ++ decimal '0' 1 p.toNat ++ " of object "
        ++ decimal '0' 1 o.toNat ++ " with length " ++ decimal '0' 1 n
  | abbreviationDepth a => "abbreviation nesting too deep at " ++ address a
  | wordTooLong text => "text '" ++ text ++ "' does not fit in an encoded word"
  | storyTooShort n =>
      "story file: image is " ++ decimal '0' 1 n ++ " bytes, too small for a header"
  | unsupportedVersion v =>
      "unsupported story version " ++ decimal '0' 1 v.toNat
        ++ " (only version 3 is supported)"
  | stream cause => "I/O error: " ++ cause.message
  | protocol cause => "protocol error: " ++ cause.message
  | settings cause => "configuration error: " ++ cause.message
  | defect _ => "internal error"

end Fault

end ZMachine
