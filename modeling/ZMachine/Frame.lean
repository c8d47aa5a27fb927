import ZMachine.Checked
import ZMachine.Memory.Scan

/-! # Routine frames

    A frame is one activation of a routine: its local variables, its own
    evaluation stack, and where its caller goes on. Stack operations never
    reach the locals, and locals are numbered from 1. -/

namespace ZMachine

/-- One activation of a routine. -/
structure Frame where
  /-- The address of the routine header. -/
  address : Nat
  /-- Where the caller goes on: at the byte that names the variable for the result. -/
  returnAddress : Nat
  locals : List UInt16
  /-- The evaluation stack, top first. -/
  stack : List UInt16 := []
  deriving DecidableEq, Repr, Inhabited

namespace Frame

/-- The greatest number of local variables. -/
def maxLocals : Nat := 15

/-- The bottom frame. A story starts at an instruction and not at a routine,
    so it has no locals and nowhere to return to. -/
def main (initialPc : Nat) : Frame :=
  { address := initialPc, returnAddress := 0, locals := [] }

/-- Reads a routine header: the number of locals and their initial values. -/
def scan (returnAddress : Nat) : Scan Frame := do
  let address ← Scan.position
  if isPacked address then
    let count ← Scan.byte
    if count.toNat ≤ maxLocals then
      let locals ← Scan.words count.toNat
      pure { address, returnAddress, locals }
    else
      fun _ => .fail (.tooManyLocals address count)
  else
    fun _ => .fail (.oddRoutine address)

/-- The values of a frame as they lie one behind another: its locals, and then its evaluation
    stack from the bottom. -/
def values (f : Frame) : List UInt16 := f.locals ++ f.stack.reverse

/-- The part of the values that the locals take up. -/
def localValues (f : Frame) : Except Fault (List UInt16) :=
  Checked.slice .frameSlice f.values 0 f.locals.length

/-- The part of the values that the evaluation stack takes up. -/
def stackValues (f : Frame) : Except Fault (List UInt16) :=
  Checked.slice .frameSlice f.values f.locals.length f.values.length

/-- Puts arguments into the first locals; arguments without a local are dropped. -/
def withArguments (f : Frame) (arguments : List UInt16) : Frame :=
  let given := arguments.take f.locals.length
  { f with locals := given ++ f.locals.drop given.length }

/-- Puts arguments into the part of the values that the locals take up. -/
def applyArguments (f : Frame) (arguments : List UInt16) : Except Fault Frame := do
  let locals ← f.localValues
  pure ({ f with locals }.withArguments arguments)

/-- The place of a local variable. -/
def localIndex (f : Frame) (v : UInt8) : Except Fault Nat :=
  if 1 ≤ v.toNat ∧ v.toNat ≤ f.locals.length then Checked.sub .localIndex v.toNat 1
  else .error (.localOutOfRange v f.locals.length)

/-- The value of a local variable. -/
def getLocal (f : Frame) (v : UInt8) : Except Fault UInt16 := do
  let i ← f.localIndex v
  Checked.index .localIndex f.locals i

/-- Sets a local variable. -/
def setLocal (f : Frame) (v : UInt8) (x : UInt16) : Except Fault Frame := do
  let i ← f.localIndex v
  Checked.require .localIndex (i < f.locals.length)
  pure { f with locals := f.locals.set i x }

/-- Pushes a value. -/
def push (f : Frame) (x : UInt16) : Frame := { f with stack := x :: f.stack }

/-- Pops a value. -/
def pop (f : Frame) : Except Fault (UInt16 × Frame) :=
  match f.stack with
  | [] => .error (.stackUnderflow f.address)
  | x :: rest => .ok (x, { f with stack := rest })

/-- The value on top. -/
def peek (f : Frame) : Except Fault UInt16 := do
  match (← f.stackValues).getLast? with
  | none => .error (.stackUnderflow f.address)
  | some x => .ok x

/-- Replaces the value on top. -/
def poke (f : Frame) (x : UInt16) : Except Fault Frame :=
  match f.stack with
  | [] => .error (.stackUnderflow f.address)
  | _ :: rest => .ok { f with stack := x :: rest }

/-- A frame in a report. -/
def describe (f : Frame) : String :=
  "routine " ++ Numeral.address f.address ++ " (returns to " ++ Numeral.address f.returnAddress
    ++ ") locals " ++ Numeral.words f.locals ++ " stack " ++ Numeral.words f.stack.reverse

end Frame

end ZMachine
