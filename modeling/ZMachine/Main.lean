import ZMachine.CommandLine

/-! # The program

    Reads the files that the command line names and plays a story at the
    console. The machine itself does no input: a step that needs a line which
    has not been typed yet is given up, and tried again once the line is there. -/

namespace ZMachine.CommandLine

/-- The number of an error of the system, whose code may have either sign. -/
def errorNumber (code : UInt32) : Nat := min code.toNat (0 - code).toNat

/-- Why a file could not be read. -/
def fileFault : IO.Error → FileFault
  | .noFileOrDirectory .. => .absent
  | .permissionDenied .. => .denied
  | .inappropriateType _ code _ => if errorNumber code = 20 then .notDirectory else .directory
  | e@(.invalidArgument _ code _) =>
      if errorNumber code = 36 then .nameTooLong else .other (toString e)
  | e => .other (toString e)

/-- Reads a file. -/
def readFile (path : String) : IO (Except FileFault (List UInt8)) := do
  try
    let bytes ← IO.FS.readBinFile path
    return .ok bytes.toList
  catch e =>
    return .error (fileFault e)

/-- Reads the files that the words of a command line name. -/
def readFiles (words : List String) : IO Files := do
  let paths := words.take 1
    ++ (Settings.configPath ((words.drop 1).filter (· != "--header"))).toList
  let found ← paths.mapM fun path => do
    return (path, ← readFile path)
  return fun path => (found.lookup path).getD (.error .absent)

/-- Reads the bytes of a line after those in `line`; none are added at the end of the input. -/
partial def readLineBytes (input : IO.FS.Stream) (line : Array UInt8) : IO (Array UInt8) := do
  let bytes ← input.read 1
  match bytes.toList with
  | [] => return line
  | b :: _ => if b == 10 then return line.push b else readLineBytes input (line.push b)

/-- Prints what a console has put out. -/
def flush (output : IO.FS.Stream) (s : Session Console) : IO (Session Console) := do
  if s.device.output.isEmpty then return s
  output.putStr s.device.output
  output.flush
  return { s with device := { s.device with output := "" } }

/-- Prints the instruction at the pc. -/
def trace (s : Session Console) : IO Unit := do
  match (Instruction.scan s.machine.memory s.machine.pc).1 with
  | .ok i => IO.eprintln i.describe
  | .error _ => return ()

/-- Plays on until the story stops; yields the fault that ended it, if one did. -/
partial def converse (input output : IO.FS.Stream) (traced : Bool) (s : Session Console) :
    IO (Option Fault) := do
  if s.machine.isStopped then return none
  match Session.step s with
  | (.error (.stream .wouldBlock), _) =>
      let line ← readLineBytes input #[]
      let device := { s.device with
        input := s.device.input ++ line.toList
        isOpen := line.back? == some 10 }
      converse input output traced { s with device }
  | (result, t) =>
      if traced then trace s
      let t ← flush output t
      match result with
      | .ok () => converse input output traced t
      | .error e => return some e

/-- A number that cannot be predicted. -/
def drawEntropy : IO UInt64 := do
  let bytes ← IO.getRandomBytes 8
  return bytes.toList.foldl (fun n b => 256 * n + b.toUInt64) 0

/-- Prints a report and yields the exit code. -/
def publish (r : Report) : IO UInt32 := do
  IO.print r.output
  IO.eprint r.errors
  return r.exitCode

/-- Plays a story at the console. -/
def play (image : Memory) (s : Settings) : IO UInt32 := do
  let input ← IO.getStdin
  let output ← IO.getStdout
  match Machine.load image s.rules (← drawEntropy) with
  | .error e => publish { failure := some (.session e) }
  | .ok machine =>
      let device : Console := { input := [], isOpen := true, echo := !(← input.isTty) }
      let failure ← converse input output s.trace { machine, device }
      publish { failure := failure.map .session }

end ZMachine.CommandLine

/-- Runs the program with the words of its command line. -/
def main (words : List String) : IO UInt32 := do
  let files ← ZMachine.CommandLine.readFiles words
  match ZMachine.CommandLine.plan files words with
  | .report r => ZMachine.CommandLine.publish r
  | .play image s => ZMachine.CommandLine.play image s
