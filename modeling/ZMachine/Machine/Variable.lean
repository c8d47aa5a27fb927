import ZMachine.Machine

/-! # Variables

    Variable 0 is the evaluation stack of the running routine, 1 to 15 are its
    locals, and 16 to 255 are words of memory that all routines share. An
    instruction that computes a value is followed by the number of the variable
    that receives it. -/

namespace ZMachine.Machine

/-- The byte at the pc, which moves past it. -/
def nextByte : Action Machine UInt8 := fun m =>
  match m.memory.byteAt m.pc with
  | .ok b => (.ok b, { m with pc := m.pc + 1 })
  | .error e => (.error e, m)

/-- The number of the first global variable. -/
def firstGlobal : Nat := 16

/-- The address of a global variable, which has a number from 16 up. -/
def globalAddress (m : Machine) (v : UInt8) : Nat :=
  m.story.header.globals.toNat + 2 * (v.toNat - 16)

/-- Finds the address of a global variable. -/
def locateGlobal (v : UInt8) : Action Machine Nat := do
  let i ← .ofExcept (Checked.sub .globalNumber v.toNat firstGlobal)
  .view fun m => m.story.header.globals.toNat + 2 * i

/-- Reads a global variable. -/
def readGlobal (v : UInt8) : Action Machine UInt16 := do
  let a ← locateGlobal v
  askMemory (·.wordAt a)

/-- Writes a global variable. -/
def writeGlobal (v : UInt8) (x : UInt16) : Action Machine Unit := do
  let a ← locateGlobal v
  onMemory (Memory.writeWord a x)

/-- Yields what `f` finds in the running frame. -/
def askTop {α : Type} (f : Frame → Except Fault α) : Action Machine α :=
  .ask fun m => f m.calls.top

/-- Changes the running frame by `f`, or fails as it does. -/
def changeTop (f : Frame → Except Fault Frame) : Action Machine Unit := fun m =>
  match f m.calls.top with
  | .ok t => (.ok (), { m with calls := m.calls.withTop t })
  | .error e => (.error e, m)

/-- Pushes a value on the evaluation stack. -/
def push (x : UInt16) : Action Machine Unit := changeTop fun f => .ok (f.push x)

/-- Pops a value off the evaluation stack. -/
def pop : Action Machine UInt16 := fun m =>
  match m.calls.top.pop with
  | .ok (x, t) => (.ok x, { m with calls := m.calls.withTop t })
  | .error e => (.error e, m)

/-- Reads a variable. -/
def readVariable (v : UInt8) : Action Machine UInt16 := do
  if v = 0 then
    match ← .view fun m => m.rules.stack with
    | .standard => pop
    | .legacy => askTop Frame.peek
  else if v.toNat < 16 then askTop (·.getLocal v)
  else readGlobal v

/-- Writes a variable. -/
def writeVariable (v : UInt8) (x : UInt16) : Action Machine Unit := do
  if v = 0 then push x
  else if v.toNat < 16 then changeTop (·.setLocal v x)
  else writeGlobal v x

/-- Reads a variable that an operand refers to; the stack is not popped. -/
def readIndirect (v : UInt8) : Action Machine UInt16 :=
  if v = 0 then askTop Frame.peek else readVariable v

/-- Writes a variable that an operand refers to; the standard rule replaces the
    value on top of the stack. -/
def writeIndirect (v : UInt8) (x : UInt16) : Action Machine Unit := do
  match ← .view fun m => m.rules.stack with
  | .standard => if v = 0 then changeTop (·.poke x) else writeVariable v x
  | .legacy => writeVariable v x

/-- Adds to a variable that an operand refers to, the stack in place, and yields the new value. -/
def updateVariable (v : UInt8) (delta : UInt16) : Action Machine UInt16 := do
  let old ← readIndirect v
  let new := old + delta
  if v = 0 then changeTop (·.poke new) else writeVariable v new
  pure new

/-- Stores a result in the variable that the next byte names. -/
def storeResult (x : UInt16) : Action Machine Unit := do
  let v ← nextByte
  writeVariable v x

end ZMachine.Machine
