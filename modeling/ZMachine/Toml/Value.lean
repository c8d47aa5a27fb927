import ZMachine.Text.Decimal

/-! # TOML values

    A table remembers how it came to be, because that decides what may still be
    added to it. -/

namespace ZMachine.Toml

/-- How a table came to be. -/
inductive Origin where
  /-- It has a header of its own, or is the document itself. -/
  | stated
  /-- It was named within the header of another table. -/
  | implied
  /-- It was named within a dotted key. -/
  | dotted
  /-- It was written between braces. -/
  | closed
  deriving DecidableEq, Repr

/-- A number that need not be whole. -/
inductive Real where
  | decimal (d : Text.Decimal)
  | infinity (isNegative : Bool)
  | notANumber
  deriving DecidableEq, Repr

/-- A date. -/
structure Date where
  year : Nat
  month : Nat
  day : Nat
  deriving DecidableEq, Repr

/-- A time of day. -/
structure Time where
  hour : Nat
  minute : Nat
  second : Nat
  /-- The digits of the fraction of a second. -/
  fraction : List Char := []
  deriving DecidableEq, Repr

/-- A date, a time of day, or both and perhaps the offset from universal time in minutes. -/
structure Moment where
  date : Option Date := none
  time : Option Time := none
  offset : Option Int := none
  deriving DecidableEq, Repr

/-- A TOML value. -/
inductive Value where
  | string (s : String)
  | integer (n : Int)
  | float (x : Real)
  | bool (b : Bool)
  | moment (m : Moment)
  | array (elements : List Value)
  | table (origin : Origin) (entries : List (String × Value))
  | tables (elements : List (List (String × Value)))
  deriving Repr

/-- The entries of a table, in the order in which they were added. -/
abbrev Entries := List (String × Value)

end ZMachine.Toml
