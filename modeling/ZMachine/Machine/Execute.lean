import ZMachine.Instruction
import ZMachine.Machine.Input
import ZMachine.Object.Attribute
import ZMachine.Object.Property
import ZMachine.Object.Tree

/-! # Execution of operations

    What each operation does, given the values of its operands. An operation
    that yields a value stores it in the variable named by the byte after the
    operands; one that tests something follows the branch descriptor after
    that. -/

namespace ZMachine

namespace Machine

/-- Yields what `f` finds in the objects of the story. -/
def askObjects {α : Type} (f : ObjectTable → Memory → Except Fault α) : Action Machine α :=
  .ask fun m => f m.story.objects m.memory

/-- Changes the objects of the story. -/
def onObjects (f : ObjectTable → Action Memory Unit) : Action Machine Unit := do
  let story ← .view Machine.story
  onMemory (f story.objects)

/-- Stores what `f` finds in the objects of the story. -/
def storeObjects (f : ObjectTable → Memory → Except Fault UInt16) : Action Machine Unit := do
  let x ← askObjects f
  storeResult x

/-- Stores a link of an object and branches if it names an object. -/
def storeLink (l : Link) (o : UInt16) : Action Machine Unit := do
  let target ← askObjects fun t m => t.link m l o
  storeResult target
  branch (target != 0)

/-- The address of an element of a table of words. -/
def wordElement (base index : UInt16) : Nat := (base + index * 2).toNat

/-- The address of an element of a table of bytes. -/
def byteElement (base index : UInt16) : Nat := (base + index).toNat

/-- The quotient of signed numbers, truncated toward zero. -/
def quotient (a b : UInt16) : UInt16 := ofSigned ((signed a).tdiv (signed b))

/-- The remainder of signed numbers, with the sign of the first. -/
def remainder (a b : UInt16) : UInt16 := ofSigned ((signed a).tmod (signed b))

/-- Pops a value into the variable that an operand refers to; the legacy rule drops it. -/
def pull (v : UInt16) : Action Machine Unit := do
  let x ← pop
  match ← .view fun m => m.rules.stack with
  | .standard => writeIndirect (lowByte v) x
  | .legacy => pure ()

/-- Draws a random number from 1 up to a range. -/
def drawRandom (range : UInt16) : Action Machine UInt16 := fun m =>
  match m.random.draw? range with
  | some (x, random) => (.ok x, { m with random })
  | none => (.error (.defect .keystreamExhausted), m)

/-- Stores a random number up to a positive range. A negative one makes the
    numbers predictable, with its absolute value as the seed, and 0 makes them
    unpredictable; both store 0. -/
def storeRandom (range : UInt16) : Action Machine Unit := do
  if 0 < signed range then
    let x ← drawRandom range
    storeResult x
  else if range = 0 then
    .change fun m =>
      { m with
        random := .unpredictable m.entropy
        entropy := Random.StreamKey.nextSeed m.entropy }
    storeResult 0
  else
    .change fun m => { m with random := .predictable (UInt64.ofNat (signed range).natAbs) }
    storeResult 0

/-- Executes an operation with two operands other than `je`. -/
def executePair (op : TwoOp) (a b : UInt16) : Action Machine Unit :=
  match op with
  | .je => branch (a == b)
  | .jl => branch (decide (signed a < signed b))
  | .jg => branch (decide (signed b < signed a))
  | .decChk => do
      let new ← updateVariable (lowByte a) (ofSigned (-1))
      branch (decide (signed new < signed b))
  | .incChk => do
      let new ← updateVariable (lowByte a) 1
      branch (decide (signed b < signed new))
  | .jin => do
      let parent ← askObjects fun t m => t.link m .parent a
      branch (parent == b)
  | .test => branch (a &&& b == b)
  | .or => storeResult (a ||| b)
  | .and => storeResult (a &&& b)
  | .testAttr => do
      let on ← askObjects fun t m => t.hasAttribute m a b
      branch on
  | .setAttr => onObjects fun t => t.setAttribute a b true
  | .clearAttr => onObjects fun t => t.setAttribute a b false
  | .store => writeIndirect (lowByte a) b
  | .insertObj => onObjects fun t => t.insert a b
  | .loadw => do
      let x ← askMemory (·.wordAt (wordElement a b))
      storeResult x
  | .loadb => do
      let x ← askMemory (·.byteAt (byteElement a b))
      storeResult x.toUInt16
  | .getProp => storeObjects fun t m => t.property m a b
  | .getPropAddr => storeObjects fun t m => t.propertyAddress m a b
  | .getNextProp => storeObjects fun t m => t.nextProperty m a b
  | .add => storeResult (a + b)
  | .sub => storeResult (a - b)
  | .mul => storeResult (a * b)
  | .div => if b = 0 then .fail .divisionByZero else storeResult (quotient a b)
  | .mod => if b = 0 then .fail .moduloByZero else storeResult (remainder a b)

/-- Executes an operation of the two-operand class: `je` compares its first
    operand with each of the others, and the rest takes exactly two. -/
def executeTwo (op : TwoOp) (operands : List UInt16) : Action Machine Unit :=
  match op, operands with
  | .je, a :: others =>
      if others.length ≤ 3 then branch (others.contains a)
      else .fail (.operandCount TwoOp.je.name "1 to 4" operands.length)
  | .je, [] => .fail (.operandCount TwoOp.je.name "1 to 4" 0)
  | op, [a, b] => executePair op a b
  | op, operands => .fail (.operandCount op.name "2" operands.length)

end Machine

namespace Session

variable {δ : Type} [Device δ]

/-- Executes an operation without operands. -/
def executeZero (op : ZeroOp) : Action (Session δ) Unit :=
  match op with
  | .rtrue => onMachine (Machine.returnWith 1)
  | .rfalse => onMachine (Machine.returnWith 0)
  | .print => outputInline
  | .printRet => do
      outputInline
      output "\n"
      onMachine (Machine.returnWith 1)
  | .nop => pure ()
  | .save => onMachine (Machine.branch false)
  | .restore => onMachine (Machine.branch false)
  | .restart => onMachine Machine.restart
  | .retPopped => onMachine do
      let x ← Machine.pop
      Machine.returnWith x
  | .pop => onMachine do
      let _ ← Machine.pop
  | .quit => onMachine (.change fun m => { m with quit := true })
  | .newLine => output "\n"
  | .showStatus => showStatus
  | .verify => onMachine Machine.verify

/-- Executes an operation with one operand. -/
def executeOne (op : OneOp) (x : UInt16) : Action (Session δ) Unit :=
  match op with
  | .jz => onMachine (Machine.branch (x == 0))
  | .getSibling => onMachine (Machine.storeLink .sibling x)
  | .getChild => onMachine (Machine.storeLink .child x)
  | .getParent => onMachine (Machine.storeObjects fun t m => t.link m .parent x)
  | .getPropLen => onMachine (Machine.storeObjects fun _ m => ObjectTable.lengthAt m x)
  | .inc => onMachine do
      let _ ← Machine.updateVariable (lowByte x) 1
  | .dec => onMachine do
      let _ ← Machine.updateVariable (lowByte x) (ofSigned (-1))
  | .printAddr => outputAt x.toNat
  | .removeObj => onMachine (Machine.onObjects fun t => t.remove x)
  | .printObj => outputName x
  | .ret => onMachine (Machine.returnWith x)
  | .jump => onMachine (Machine.jump (signed x))
  | .printPaddr => outputAt (unpack x)
  | .load => onMachine do
      let value ← Machine.readIndirect (lowByte x)
      Machine.storeResult value
  | .not => onMachine (Machine.storeResult (~~~x))

/-- The fault of an operation that was given the wrong number of operands. -/
def wrongCount (op : VarOp) (expected : String) (operands : List UInt16) :
    Action (Session δ) Unit :=
  .fail (.operandCount op.name expected operands.length)

/-- Executes an operation with a variable number of operands. -/
def executeMany (op : VarOp) (operands : List UInt16) : Action (Session δ) Unit :=
  match op, operands with
  | .call, packed :: arguments => onMachine (Machine.call packed arguments)
  | .call, [] => wrongCount .call "1 to 4" []
  | .storew, [base, index, x] => onMachine
      (Machine.onMemory (Memory.writeWord (Machine.wordElement base index) x))
  | .storew, xs => wrongCount .storew "3" xs
  | .storeb, [base, index, x] => onMachine
      (Machine.onMemory (Memory.writeByte (Machine.byteElement base index) (lowByte x)))
  | .storeb, xs => wrongCount .storeb "3" xs
  | .putProp, [o, p, x] => onMachine (Machine.onObjects fun t => t.putProperty o p x)
  | .putProp, xs => wrongCount .putProp "3" xs
  | .sread, text :: parse :: _ => readLine text parse
  | .sread, xs => wrongCount .sread "2" xs
  | .printChar, x :: _ => output (String.singleton (Text.zscii x.toNat))
  | .printChar, [] => wrongCount .printChar "1" []
  | .printNum, x :: _ => output (Numeral.integer (signed x))
  | .printNum, [] => wrongCount .printNum "1" []
  | .random, range :: _ => onMachine (Machine.storeRandom range)
  | .random, [] => wrongCount .random "1" []
  | .push, [x] => onMachine (Machine.push x)
  | .push, xs => wrongCount .push "1" xs
  | .pull, [v] => onMachine (Machine.pull v)
  | .pull, xs => wrongCount .pull "1" xs
  | .splitWindow, _ => pure ()
  | .setWindow, _ => pure ()
  | .outputStream, xs => onMachine (Machine.selectStream xs)
  | .inputStream, _ => pure ()
  | .soundEffect, _ => pure ()

end Session

end ZMachine
