import ZMachine.Json.Parser
import ZMachine.Text.Quoted

/-! # Messages

    What goes over a framed channel: a text, a status line, or the wish to
    close the channel. A message is written as a JSON object whose member
    `type` says which it is. When a message is read, the members may come in
    any order, and others besides them are ignored; known members may neither
    be missing nor be repeated. A message may also be an array that gives its
    type and then its parts in order. -/

namespace ZMachine

/-- A message on a framed channel. -/
inductive Message where
  | text (data : String)
  | status (location right : String)
  | close
  deriving DecidableEq, Repr

namespace Message

open Json

/-- A member of an object whose value is a string. -/
def renderMember (key value : String) : List Char :=
  renderString key ++ ':' :: renderString value

/-- A message as JSON. -/
def render (m : Message) : List Char :=
  let members := match m with
    | text data => [("type", "text"), ("data", data)]
    | status location right => [("type", "status"), ("location", location), ("right", right)]
    | close => [("type", "close")]
  '\x7b' :: List.intercalate [','] (members.map fun (k, v) => renderMember k v) ++ ['\x7d']

/-- The string that an object has under a key, which must occur once. -/
def field? (members : List (String × Value)) (key : String) : Option String :=
  match members.filter fun m => m.1 == key with
  | [(_, .string s)] => some s
  | _ => none

/-- The message that a JSON value stands for. -/
def ofJson? : Value → Option Message
  | .object members =>
      match field? members "type" with
      | some "text" => do
          let data ← field? members "data"
          pure (text data)
      | some "status" => do
          let location ← field? members "location"
          let right ← field? members "right"
          pure (status location right)
      | some "close" => some close
      | _ => none
  | .array [.string "text", .string data] => some (text data)
  | .array [.string "status", .string location, .string right] => some (status location right)
  | .array [.string "close"] => some close
  | _ => none

/-- The message that a text stands for. -/
def parse? (s : String) : Option Message := do
  let v ← Json.parse? s
  ofJson? v

/-- A message in a report. -/
def describe : Message → String
  | text data => "Text \x7b data: " ++ Text.quote data ++ " \x7d"
  | status location right =>
      "Status \x7b location: " ++ Text.quote location ++ ", right: " ++ Text.quote right ++ " \x7d"
  | close => "Close"

end Message

end ZMachine
