import ZMachine.Settings
import ZMachine.Toml.Document

/-! # Settings from a document

    A document gives settings in the tables `interpreter` and `server`. What it
    does not give keeps its default, and what it gives besides is ignored. In
    place of a table there may be an array with the settings in order, or a
    moment, which gives none. A name out of several may also be written as a
    table with the name as its only key and nothing under it. -/

namespace ZMachine.Settings

open Toml (Value)

/-- The settings of a section, in the order of their names. -/
def section? (names : List String) : Value → Option (List (Option Value))
  | .table _ entries => some (names.map fun name => entries.lookup name)
  | .array elements => some (names.mapIdx fun i _ => elements[i]?)
  | .tables elements => some (names.mapIdx fun i _ => elements[i]?.map (.table .stated))
  | .moment _ => some (names.map fun _ => none)
  | _ => none

/-- Whether a value is an array or a table with nothing in it. -/
def isHollow : Value → Bool
  | .array elements => elements.isEmpty
  | .table _ entries => entries.isEmpty
  | .tables elements => elements.isEmpty
  | _ => false

/-- A name out of several. -/
def name? : Value → Option String
  | .string s => some s
  | .table _ [(key, v)] => if isHollow v then some key else none
  | _ => none

/-- A number that is not negative. -/
def count? : Value → Option Nat
  | .integer n => if 0 ≤ n then some n.toNat else none
  | _ => none

/-- A truth value. -/
def truth? : Value → Option Bool
  | .bool b => some b
  | _ => none

/-- A text. -/
def text? : Value → Option String
  | .string s => some s
  | _ => none

/-- Reads a setting, which has a default. -/
def setting? {α : Type} (fallback : α) (read : Value → Option α) : Option Value → Option α
  | none => some fallback
  | some v => read v

/-- Reads a section of which nothing need be given. -/
def fields? (names : List String) : Option Value → Option (List (Option Value)) :=
  setting? (names.map fun _ => none) (section? names)

/-- The settings that a text stands for. -/
def parse? (text : String) : Option Settings := do
  let root ← Toml.parse? text
  let interpreter ← fields? ["stack_semantics", "random_seed", "instruction_limit", "trace"]
    (root.lookup "interpreter")
  let server ← fields? ["listen", "protocol"] (root.lookup "server")
  match interpreter, server with
  | [stack, seed, limit, trace], [listen, protocol] => do
      let stack ← setting? .standard (fun v => (name? v).bind StackRule.ofName?) stack
      let seed ← setting? none (fun v => (count? v).map (some ∘ UInt64.ofNat)) seed
      let limit ← setting? none (fun v => (count? v).map some) limit
      let trace ← setting? false truth? trace
      let listen ← setting? none (fun v => (text? v).map some) listen
      let protocol ← setting? .terminal (fun v => (name? v).bind Protocol.ofName?) protocol
      pure { rules := { stack, seed, limit }, trace, listen, protocol }
  | _, _ => none

/-- The settings that a text stands for, or the fault that it has. -/
def parse (text : String) : Except Fault Settings :=
  match parse? text with
  | some s => .ok s
  | none => .error (.settings .malformed)

end ZMachine.Settings
