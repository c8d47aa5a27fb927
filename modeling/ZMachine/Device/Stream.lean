import ZMachine.Action

/-! # Byte streams

    A source hands out bytes in the chunks in which they arrive. A chunk longer
    than what is asked for is cut, and an empty chunk reads as the end of the
    stream, once. After the last chunk the stream is at its end for ever or, if
    it is one that blocks, every read fails. A sink takes bytes up to a limit,
    if it has one. -/

namespace ZMachine

/-- Bytes that arrive in chunks. -/
structure ByteSource where
  chunks : List (List UInt8)
  blocks : Bool := false
  deriving DecidableEq, Repr

namespace ByteSource

/-- Reads at most `limit` bytes, at least one unless the stream is at its end. -/
def read (limit : Nat) : Action ByteSource (List UInt8) := fun s =>
  match s.chunks with
  | [] => (if s.blocks then .error (.stream .wouldBlock) else .ok [], s)
  | chunk :: rest =>
      if chunk.length ≤ limit then (.ok chunk, { s with chunks := rest })
      else (.ok (chunk.take limit), { s with chunks := chunk.drop limit :: rest })

/-- Reads exactly `n` bytes in at most `fuel` reads; what arrives before an early end is lost. -/
def readFor : (fuel n : Nat) → Action ByteSource (List UInt8)
  | _, 0 => pure []
  | 0, _ + 1 => .fail (.stream .endOfStream)
  | fuel + 1, n + 1 => do
      let got ← read (n + 1)
      if got.isEmpty then .fail (.stream .endOfStream)
      let rest ← readFor fuel (n + 1 - got.length)
      pure (got ++ rest)

/-- Reads exactly `n` bytes. Each read brings at least one. -/
def readExactly (n : Nat) : Action ByteSource (List UInt8) := readFor n n

/-- The number of bytes still to come. -/
def remaining (s : ByteSource) : Nat := s.chunks.flatten.length

end ByteSource

/-- Bytes that have been written, and how many there may be. -/
structure ByteSink where
  written : Array UInt8 := #[]
  limit : Option Nat := none
  deriving DecidableEq, Repr

namespace ByteSink

/-- Writes bytes. Those that do not fit are lost and the write fails. -/
def write (bytes : List UInt8) : Action ByteSink Unit := fun s =>
  match s.limit with
  | none => (.ok (), { s with written := s.written ++ bytes })
  | some limit =>
      let room := limit - s.written.size
      if bytes.length ≤ room then (.ok (), { s with written := s.written ++ bytes })
      else (.error (.stream .brokenPipe), { s with written := s.written ++ bytes.take room })

end ByteSink

end ZMachine
