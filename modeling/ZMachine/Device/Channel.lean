import ZMachine.Device
import ZMachine.Device.Message
import ZMachine.Device.Stream
import ZMachine.Text.Utf8

/-! # Framed channel

    A channel carries messages over a byte stream: each is sent as the number
    of its bytes, in four bytes with the highest first, and the bytes
    themselves. Every text that is printed is a message of its own, and lines
    are read from text messages. -/

namespace ZMachine

/-- A framed channel. -/
structure Channel where
  source : ByteSource
  sink : ByteSink := {}
  deriving DecidableEq, Repr

namespace Channel

/-- The greatest number of bytes of a message that is read. -/
def maxMessage : Nat := 0x100000

/-- The number that four bytes stand for, the highest first. -/
def lengthValue (bytes : List UInt8) : Nat :=
  bytes.foldl (fun n b => 256 * n + b.toNat) 0

/-- The four bytes of a number, the highest first. -/
def lengthBytes (n : Nat) : List UInt8 :=
  [UInt8.ofNat (n / 0x1000000), UInt8.ofNat (n / 0x10000), UInt8.ofNat (n / 0x100), UInt8.ofNat n]

/-- Writes a message: its length, and then its text. -/
def writeMessage (m : Message) : Action ByteSink Unit := do
  let bytes := Utf8.encode m.render
  ByteSink.write (lengthBytes bytes.length)
  ByteSink.write bytes

/-- The four bytes of a length, or none if the stream ends before the last of them. -/
def readLength : Action ByteSource (Option (List UInt8)) := fun s =>
  match ByteSource.readExactly 4 s with
  | (.ok bytes, t) => (.ok (some bytes), t)
  | (.error (.stream .endOfStream), t) => (.ok none, t)
  | (.error e, t) => (.error e, t)

/-- Reads a message; none at the end of the stream. -/
def readMessage : Action ByteSource (Option Message) := do
  match ← readLength with
  | none => pure none
  | some bytes =>
      let length := lengthValue bytes
      if maxMessage < length then .fail (.protocol (.tooLarge length))
      let body ← ByteSource.readExactly length
      match (Utf8.decode? body).bind Message.parse? with
      | some m => pure (some m)
      | none => .fail (.protocol .malformed)

/-- Runs an action on the sink of a channel. -/
def onSink {α : Type} (x : Action ByteSink α) : Action Channel α := fun c =>
  match x c.sink with
  | (r, sink) => (r, { c with sink })

/-- Runs an action on the source of a channel. -/
def onSource {α : Type} (x : Action ByteSource α) : Action Channel α := fun c =>
  match x c.source with
  | (r, source) => (r, { c with source })

instance : Device Channel where
  print text := onSink (writeMessage (.text text))
  readLine := do
    match ← onSource readMessage with
    | some (.text data) => pure (trimLineEnding data)
    | none => pure ""
    | some m => .fail (.protocol (.unexpected m.describe))
  showStatus location right := onSink (writeMessage (.status location right))

end Channel

end ZMachine
