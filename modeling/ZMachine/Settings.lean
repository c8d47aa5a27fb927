import ZMachine.Machine

/-! # Settings

    What a user can choose: the rules of the machine, whether to trace it, and
    whether and how to serve a story to others. -/

namespace ZMachine

/-- How a served story talks to its player. -/
inductive Protocol where
  /-- Lines of text, for a terminal. -/
  | terminal
  /-- Framed messages. -/
  | framed
  deriving DecidableEq, Repr

/-- What a user can choose. -/
structure Settings where
  rules : Rules := {}
  /-- Whether every instruction is logged. -/
  trace : Bool := false
  /-- The address to serve a story at. -/
  listen : Option String := none
  protocol : Protocol := .terminal
  deriving DecidableEq, Repr

namespace Protocol

/-- The protocol with a given name. -/
def ofName? : String → Option Protocol
  | "terminal" => some .terminal
  | "framed" => some .framed
  | _ => none

end Protocol

namespace StackRule

/-- The stack rule with a given name. -/
def ofName? : String → Option StackRule
  | "standard" => some .standard
  | "legacy" => some .legacy
  | _ => none

end StackRule

end ZMachine
