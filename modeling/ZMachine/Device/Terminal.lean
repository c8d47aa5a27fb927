import ZMachine.Device
import ZMachine.Device.Stream
import ZMachine.Text.Utf8

/-! # Remote terminal

    A terminal at the other end of a byte stream. Every line feed that is
    printed is sent with a carriage return before it. A line of input ends at a
    line feed or a carriage return; a line feed or a zero byte right after a
    carriage return belongs to it, but it is dropped only by the next read, so
    that no read waits for more than its line. -/

namespace ZMachine

/-- A remote terminal. -/
structure Terminal where
  source : ByteSource
  /-- Bytes that have been read from the source and not been used. -/
  buffer : List UInt8 := []
  /-- Whether the last line ended with a carriage return. -/
  afterReturn : Bool := false
  sink : ByteSink := {}
  deriving DecidableEq, Repr

namespace Terminal

/-- The number of bytes that one read of the source asks for. -/
def bufferSize : Nat := 8192

/-- The number of bytes of a line that are kept. -/
def maxLine : Nat := 1024

/-- The next byte, which stays where it is; none at the end of the stream. -/
def peekByte : Action Terminal (Option UInt8) := fun t =>
  match t.buffer with
  | b :: _ => (.ok (some b), t)
  | [] =>
      match ByteSource.read bufferSize t.source with
      | (.ok bytes, source) => (.ok bytes.head?, { t with source, buffer := bytes })
      | (.error e, source) => (.error e, { t with source })

/-- Drops the next byte from the buffer. -/
def dropByte : Action Terminal Unit :=
  .change fun t => { t with buffer := t.buffer.tail }

/-- Drops a line feed or a zero byte if the last line ended with a carriage return. -/
def finishReturn : Action Terminal Unit := do
  if ← .view Terminal.afterReturn then
    .change fun t => { t with afterReturn := false }
    match ← peekByte with
    | some 10 => dropByte
    | some 0 => dropByte
    | _ => pure ()

/-- Reads up to the end of a line, for at most `fuel` bytes; `line` holds the
    bytes before, in reverse. -/
def readRest : (fuel : Nat) → (line : List UInt8) → Action Terminal (List UInt8)
  | 0, line => pure line.reverse
  | fuel + 1, line => do
      match ← peekByte with
      | none => pure line.reverse
      | some 10 => do
          dropByte
          pure line.reverse
      | some 13 => do
          dropByte
          .change fun t => { t with afterReturn := true }
          pure line.reverse
      | some b => do
          dropByte
          readRest fuel (b :: line)

/-- The number of bytes that can still be read. -/
def remaining (t : Terminal) : Nat := t.buffer.length + t.source.remaining

/-- Reads the bytes of a line. No line has more bytes than can still be read. -/
def readBytes : Action Terminal (List UInt8) := do
  finishReturn
  let fuel ← .view remaining
  readRest (fuel + 1) []

/-- The characters that are sent for a text. -/
def withReturns (text : String) : List Char :=
  text.toList.flatMap fun c => if c = '\n' then ['\r', '\n'] else [c]

/-- Sends bytes. -/
def send (bytes : List UInt8) : Action Terminal Unit := fun t =>
  match ByteSink.write bytes t.sink with
  | (r, sink) => (r, { t with sink })

instance : Device Terminal where
  print text := send (Utf8.encode (withReturns text))
  readLine := do
    let bytes ← readBytes
    pure (Utf8.decodeLossy (bytes.take maxLine))
  showStatus _ _ := pure ()

end Terminal

end ZMachine
