import ZMachine.Device.Console
import ZMachine.Machine.Run
import ZMachine.Settings.Document
import ZMachine.Settings.Options
import ZMachine.Text.Quoted

/-! # Command line

    The command line names a story and options. Settings come from a file, if
    the options name one, and then from the options themselves. What is to be
    done follows from the words of the command line and the files that they
    name; playing a story also takes the input. -/

namespace ZMachine

/-- Why a file cannot be used. -/
inductive FileFault where
  | absent
  | denied
  /-- A part of its path other than the last is no directory. -/
  | notDirectory
  | nameTooLong
  /-- It is a directory, which can be opened but not read. -/
  | directory
  | other (reason : String)
  deriving DecidableEq, Repr

namespace FileFault

/-- The text of a file fault. -/
def message : FileFault → String
  | absent => "No such file or directory (os error 2)"
  | denied => "Permission denied (os error 13)"
  | notDirectory => "Not a directory (os error 20)"
  | nameTooLong => "File name too long (os error 36)"
  | directory => "Is a directory (os error 21)"
  | other reason => reason

/-- What could not be done with the file. -/
def attempt : FileFault → String
  | directory => "read"
  | _ => "open"

end FileFault

/-- Why a story cannot be served at an address. -/
inductive AddressFault where
  | noPort
  | badPort
  /-- The host has a null character in it. -/
  | badHost
  /-- The address is well formed, but nothing can be served there. -/
  | unavailable (address : String)
  deriving DecidableEq, Repr

namespace AddressFault

/-- An address fault in a report. -/
def describe : AddressFault → String
  | noPort => invalidInput "invalid socket address"
  | badPort => invalidInput "invalid port value"
  | badHost => invalidInput "file name contained an unexpected NUL byte"
  | unavailable address => "cannot listen at '" ++ address ++ "'"
where
  /-- A fault of the input by its message. -/
  invalidInput (message : String) : String :=
    "Error \x7b kind: InvalidInput, message: " ++ Text.quote message ++ " \x7d"

/-- What is wrong with an address: it must be a host, a colon and the number of a port,
    where the last colon counts. -/
def ofAddress (address : String) : AddressFault :=
  match address.toList.reverse.span (· != ':') with
  | (_, []) => noPort
  | (port, _ :: host) =>
      match Text.unsigned? 0x10000 (String.ofList port.reverse) with
      | none => badPort
      | some _ => if host.contains '\x00' then badHost else unavailable address

end AddressFault

namespace CommandLine

/-- The files that can be read, by their paths. -/
abbrev Files := String → Except FileFault (List UInt8)

/-- Why a command failed. -/
inductive Failure where
  /-- The settings or the header of the story are at fault. -/
  | setup (fault : Fault)
  | story (path : String) (fault : FileFault)
  | session (fault : Fault)
  | listening (fault : AddressFault)
  deriving DecidableEq, Repr

/-- A fault by its kind, with what it is about. -/
def describeFault : Fault → String
  | .settings cause => "Config(" ++ Text.quote cause.message ++ ")"
  | .unsupportedVersion v => "UnsupportedVersion(" ++ Numeral.decimal '0' 1 v.toNat ++ ")"
  | .storyTooShort n =>
      "Story(" ++ Text.quote ("image is " ++ Numeral.decimal '0' 1 n
        ++ " bytes, too small for a header") ++ ")"
  | e => e.message

namespace Failure

/-- What is printed about a failure. -/
def message : Failure → String
  | setup fault => "Error: " ++ describeFault fault ++ "\n"
  | story path fault =>
      "Error: cannot " ++ fault.attempt ++ " story file '" ++ path ++ "': " ++ fault.message
        ++ "\n"
  | session fault => "\nError during execution: " ++ fault.message ++ "\n"
  | listening fault => "Error: " ++ fault.describe ++ "\n"

end Failure

/-- What a command has printed, and why it failed if it did. -/
structure Report where
  output : String := ""
  failure : Option Failure := none
  deriving DecidableEq, Repr

namespace Report

/-- The exit code of a command. -/
def exitCode (r : Report) : UInt32 := if r.failure.isSome then 1 else 0

/-- What is printed about the failure of a command. -/
def errors (r : Report) : String := (r.failure.map Failure.message).getD ""

end Report

/-- How the program is called. -/
def programName : String := "grue3"

/-- How to use the program. -/
def usage : String :=
  "grue3 - Z-Machine version 3 interpreter\n"
    ++ "\n"
    ++ "Usage: " ++ programName ++ " <story.z3> [options]\n"
    ++ "\n"
    ++ "Options:\n"
    ++ "  --config FILE                 read settings from a TOML file\n"
    ++ "  --listen ADDR                 serve the story over TCP instead of the console\n"
    ++ "  --protocol terminal|framed    network protocol (default terminal)\n"
    ++ "  --seed N                      predictable random numbers\n"
    ++ "  --legacy-stack                variable 0 reads peek instead of pop\n"
    ++ "  --trace                       log every instruction (unless RUST_LOG is set)\n"
    ++ "  --header                      print the story header and exit\n"

/-- The settings in a file. -/
def loadSettings (files : Files) (path : String) : Except Fault Settings :=
  match files path with
  | .error e => .error (.settings (.unreadable path e.message))
  | .ok bytes =>
      match Utf8.decode? bytes with
      | none => .error (.settings (.unreadable path StreamFault.invalidText.message))
      | some text => Settings.parse text

/-- The settings that options give, with those of the file that they name. -/
def settings (files : Files) (options : List String) : Except Fault Settings := do
  let start ← match Settings.configPath options with
    | some path => loadSettings files path
    | none => .ok {}
  match Settings.applyOptions options start with
  | (.ok (), s) => .ok s
  | (.error e, _) => .error e

/-- What is to be done. -/
inductive Plan where
  /-- Nothing more than to report. -/
  | report (r : Report)
  /-- Play a story at the console. -/
  | play (image : Memory) (settings : Settings)
  deriving DecidableEq

/-- What is to be done for a story once the settings are known. -/
def planStory (image : Memory) (showHeader : Bool) (s : Settings) : Plan :=
  if showHeader then
    match Header.ofImage image with
    | .ok h => .report { output := h.describe }
    | .error e => .report { failure := some (.setup e) }
  else
    match s.listen with
    | some address => .report { failure := some (.listening (.ofAddress address)) }
    | none => .play image s

/-- What is to be done for the words of a command line. -/
def plan (files : Files) : List String → Plan
  | [] => .report { output := usage }
  | path :: words =>
      if path = "--help" ∨ path = "-h" then .report { output := usage }
      else
        match settings files (words.filter (· != "--header")) with
        | .error e => .report { failure := some (.setup e) }
        | .ok s =>
            match files path with
            | .error e => .report { failure := some (.story path e) }
            | .ok bytes => planStory ⟨bytes.toArray⟩ (words.contains "--header") s

/-- Runs a command to its end, with the whole input given beforehand. -/
def run (files : Files) (entropy : UInt64) (input : List UInt8) (words : List String) : Report :=
  match plan files words with
  | .report r => r
  | .play image s =>
      match Session.play image s.rules entropy ({ input } : Console) with
      | (.ok (), console) => { output := console.output }
      | (.error e, console) => { output := console.output, failure := some (.session e) }

end CommandLine

end ZMachine
