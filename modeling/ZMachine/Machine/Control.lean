import ZMachine.Machine.Variable

/-! # Branches, calls and returns

    An instruction that tests something is followed by a branch descriptor of
    one or two bytes: whether to branch if the test holds or if it fails, and
    an offset. Offsets 0 and 1 return from the routine; any other offset counts
    from two bytes before the end of the descriptor. -/

namespace ZMachine

/-- A branch descriptor. -/
structure Branch where
  onTrue : Bool
  offset : Int
  deriving DecidableEq, Repr

namespace Branch

/-- The descriptor of one byte. Its offset is 6 bits without a sign. -/
def ofByte (first : UInt8) : Branch :=
  { onTrue := first.toNat / 128 == 1, offset := (first.toNat % 64 : Nat) }

/-- The descriptor of two bytes. Its offset is 14 bits with a sign. -/
def ofBytes (first second : UInt8) : Branch :=
  let raw := 256 * (first.toNat % 64) + second.toNat
  { onTrue := first.toNat / 128 == 1
    offset := if raw < 0x2000 then (raw : Int) else (raw : Int) - 0x4000 }

/-- Reads a descriptor by reading its first byte and, if there is one, its second. -/
def read {μ : Type → Type} [Monad μ] (first second : μ UInt8) : μ Branch := do
  let b ← first
  if b.toNat / 64 % 2 = 1 then
    pure (ofByte b)
  else
    let c ← second
    pure (ofBytes b c)

end Branch

namespace Machine

/-- Reads a branch descriptor. -/
def readBranch : Action Machine Branch := Branch.read nextByte nextByte

/-- Moves the pc by an offset less two. The target must lie in memory. -/
def jump (offset : Int) : Action Machine Unit := fun m =>
  let target := (m.pc : Int) + offset - 2
  if 0 ≤ target ∧ target < m.memory.size then (.ok (), { m with pc := target.toNat })
  else (.error (m.memory.outside (target % 0x100000000).toNat 1), m)

/-- Leaves the running routine with a value, which its caller stores. -/
def returnWith (x : UInt16) : Action Machine Unit := do
  (fun m =>
    match m.calls.pop with
    | .ok (f, calls) => (.ok (), { m with calls, pc := f.returnAddress })
    | .error e => (.error e, m))
  storeResult x

/-- Follows a branch if the condition is the one that it asks for. -/
def follow (b : Branch) (condition : Bool) : Action Machine Unit :=
  if condition = b.onTrue then
    if b.offset = 0 then returnWith 0
    else if b.offset = 1 then returnWith 1
    else jump b.offset
  else pure ()

/-- Reads a branch descriptor and follows it if the condition is the one that it asks for. -/
def branch (condition : Bool) : Action Machine Unit := do
  let b ← readBranch
  follow b condition

/-- Calls the routine at a packed address with arguments; a call of address 0 stores 0. -/
def call (packed : UInt16) (arguments : List UInt16) : Action Machine Unit :=
  if packed = 0 then storeResult 0
  else fun m =>
    match Frame.scan m.pc m.memory (unpack packed) with
    | (.ok f, a) =>
        match f.applyArguments arguments with
        | .ok f => (.ok (), { m with calls := m.calls.push f, pc := a })
        | .error e => (.error e, m)
    | (.error e, _) => (.error e, m)

/-- The number of bytes that a restart restores: those below static memory, at
    least the header and at most the whole image. -/
def dynamicSize (s : Story) : Nat :=
  min (max s.header.staticMemory.toNat Header.length) s.image.size

/-- Starts the story again: dynamic memory, pc, frames and streams are as at the beginning. -/
def restart : Action Machine Unit := do
  let story ← .view Machine.story
  let size ← .ofExcept (Checked.clamp .headerBounds
    story.header.staticMemory.toNat Header.length story.image.size)
  .ofExcept (Checked.require .imageSlice (size ≤ story.image.size))
  onMemory (Memory.restorePrefix (story.image.bytes.extract 0 size))
  .change fun m =>
    { m with
      pc := story.header.initialPc.toNat
      calls := { top := Frame.main story.header.initialPc.toNat }
      streams := {} }

/-- The sum of the bytes of a story file after the header, in 16 bits. -/
def checksum (s : Story) : UInt16 :=
  let stop := if s.header.fileLength = 0 then s.image.size else s.header.fileLength
  (s.image.bytes.extract Header.length stop).toList.foldl (fun total b => total + b.toUInt16) 0

/-- Branches if the story file has the checksum that its header records. -/
def verify : Action Machine Unit := do
  let story ← .view Machine.story
  branch (checksum story == story.header.checksum)

end Machine

end ZMachine
