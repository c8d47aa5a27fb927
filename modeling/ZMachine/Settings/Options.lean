import ZMachine.Settings
import ZMachine.Text.Reader

/-! # Options

    Command line options change settings one after another. When an option is
    refused, those before it have taken effect. -/

namespace ZMachine.Settings

/-- The options that take the word after them as their value. -/
def valueOptions : List String := ["--listen", "--protocol", "--seed", "--config"]

/-- The seed that a word stands for. -/
def seed? (word : String) : Option UInt64 :=
  (Text.unsigned? 0x10000000000000000 word).map UInt64.ofNat

/-- Applies an option with its value. The file with further settings has its effect elsewhere. -/
def applyValue (option value : String) : Action Settings Unit :=
  match option with
  | "--listen" => .change fun s => { s with listen := some value }
  | "--protocol" =>
      match Protocol.ofName? value with
      | some protocol => .change fun s => { s with protocol }
      | none => .fail (.settings (.unknownProtocol value))
  | "--seed" =>
      match seed? value with
      | some seed => .change fun s => { s with rules := { s.rules with seed := some seed } }
      | none => .fail (.settings (.badSeed value))
  | _ => pure ()

/-- Applies an option that takes no value. -/
def applyFlag (option : String) : Action Settings Unit :=
  match option with
  | "--legacy-stack" => .change fun s => { s with rules := { s.rules with stack := .legacy } }
  | "--trace" => .change fun s => { s with trace := true }
  | _ => .fail (.settings (.unknownOption option))

/-- Applies options. -/
def applyOptions : List String → Action Settings Unit
  | [] => pure ()
  | option :: rest =>
      if option ∈ valueOptions then
        match rest with
        | [] => .fail (.settings (.missingValue option))
        | value :: rest => do
            applyValue option value
            applyOptions rest
      else do
        applyFlag option
        applyOptions rest

/-- The file with further settings that options name. -/
def configPath : List String → Option String
  | "--config" :: path :: _ => some path
  | _ :: rest => configPath rest
  | [] => none

end ZMachine.Settings
