import ZMachine.Machine.Execute

/-! # Running a story

    A step decodes the instruction at the pc, moves the pc past it, reads the
    values of its operands from left to right and executes it. An instruction
    that cannot be decoded changes nothing. A run goes on until the story quits,
    an instruction fails or the limit of the rules is reached. -/

namespace ZMachine

namespace Machine

/-- The instruction at the pc, which moves past its operands. -/
def fetch : Action Machine Instruction := fun m =>
  match Instruction.scan m.memory m.pc with
  | (.ok i, a) => (.ok i, { m with pc := a })
  | (.error e, _) => (.error e, m)

/-- The value of an operand. -/
def resolve : Operand → Action Machine UInt16
  | .large x => pure x
  | .small x => pure x.toUInt16
  | .var v => readVariable v

/-- The values of operands, read from left to right. -/
def resolveAll : List Operand → Action Machine (List UInt16)
  | [] => pure []
  | x :: xs => do
      let v ← resolve x
      let vs ← resolveAll xs
      pure (v :: vs)

/-- The greatest count of instructions, which is a number of 64 bits. -/
def maxCount : Nat := 0xFFFFFFFFFFFFFFFF

/-- Counts an executed instruction. -/
def countInstruction : Action Machine Unit := do
  let count ← .view Machine.count
  .ofExcept (Checked.require .instructionCount (count < maxCount))
  .change fun m => { m with count := count + 1 }

/-- Whether a run is to stop before the next instruction. -/
def isStopped (m : Machine) : Bool :=
  m.quit || match m.rules.limit with
    | none => false
    | some limit => decide (0 < limit ∧ limit ≤ m.count)

/-- A machine in a report: where it stands, and its frames, innermost first. -/
def describe (m : Machine) : String :=
  "pc " ++ Numeral.address m.pc ++ ", " ++ Numeral.decimal '0' 1 m.calls.depth ++ " frame(s), "
    ++ Numeral.decimal '0' 1 m.count ++ " instruction(s) executed\n"
    ++ String.join (m.calls.frames.mapIdx fun i f =>
        "  #" ++ Numeral.decimal '0' 1 (m.calls.callers.length - i) ++ " " ++ f.describe ++ "\n")

end Machine

/-- How a run ended. -/
inductive Outcome where
  /-- The story quit, or the limit was reached. -/
  | stopped
  /-- An instruction failed. -/
  | failed (fault : Fault)
  /-- The number of steps that were allowed did not suffice. -/
  | unfinished
  deriving DecidableEq, Repr

namespace Session

variable {δ : Type} [Device δ]

/-- Executes a decoded instruction on the values of its operands. -/
def execute (i : Instruction) (operands : List UInt16) : Action (Session δ) Unit :=
  match Operation.ofNumber? i.opClass i.number with
  | none => .fail (.illegalOpcode i.opClass i.number i.address)
  | some (.zero op) => executeZero op
  | some (.one op) =>
      match operands with
      | x :: _ => executeOne op x
      | [] => .fail (.defect .missingOperand)
  | some (.two op) => onMachine (Machine.executeTwo op operands)
  | some (.many op) => executeMany op operands

/-- Executes the instruction at the pc. -/
def executeNext : Action (Session δ) Unit := do
  let i ← onMachine Machine.fetch
  let operands ← onMachine (Machine.resolveAll i.operands)
  execute i operands

/-- Executes one instruction and counts it. -/
def step : Action (Session δ) Unit := do
  executeNext
  onMachine (.change fun m => { m with count := m.count + 1 })

/-- Executes one instruction and counts it in 64 bits, as a host does. -/
def interpret : Action (Session δ) Unit := do
  executeNext
  onMachine Machine.countInstruction

/-- Executes instructions until the run stops, an instruction fails, or `fuel` of
    them have been executed. -/
def run : (fuel : Nat) → Session δ → Outcome × Session δ
  | 0, s => (if s.machine.isStopped then .stopped else .unfinished, s)
  | fuel + 1, s =>
      if s.machine.isStopped then (.stopped, s)
      else
        match step s with
        | (.ok (), t) => run fuel t
        | (.error e, t) => (.failed e, t)

/-- More steps than any host can wait for. -/
def patience : Nat := 0x4000000000000000

/-- Loads a story image for a device and runs it; yields the fault that ended it,
    if one did, and the device. -/
def play (image : Memory) (rules : Rules) (entropy : UInt64) (device : δ) :
    Except Fault Unit × δ :=
  match Machine.load image rules entropy with
  | .error e => (.error e, device)
  | .ok machine =>
      match run patience { machine, device } with
      | (.failed e, s) => (.error e, s.device)
      | (_, s) => (.ok (), s.device)

end Session

end ZMachine
