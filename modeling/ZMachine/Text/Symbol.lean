import ZMachine.Text.Alphabet

/-! # Symbols of a Z-string

    Read from left to right, the codes of a string spell symbols: characters,
    and references to entries of the abbreviation table. A shift moves to
    another alphabet until the next character from an alphabet, and what is
    left unfinished at the end spells nothing. -/

namespace ZMachine.Text

/-- What the codes of a string spell. -/
inductive Symbol where
  | char (c : Char)
  | abbreviation (entry : Nat)
  /-- A place at which reading breaks off. -/
  | fault (cause : Fault)
  deriving DecidableEq, Repr

namespace Symbol

/-- What the codes read so far leave open. -/
inductive Pending where
  /-- The next code is read in an alphabet. -/
  | none (alphabet : Alphabet)
  /-- The next code completes the number of an abbreviation from one of three blocks. -/
  | abbreviation (block : Nat)
  /-- The next code is the high half of an escaped character. -/
  | escapeHigh
  /-- The next code is the low half of an escaped character. -/
  | escapeLow (high : Nat)
  deriving DecidableEq, Repr

/-- Reads one code: the symbol that it completes, if any, and what is open after it. -/
def next : Pending → Code → Option Symbol × Pending
  | .abbreviation block, code =>
      (some (abbreviation (32 * block + code.val)), .none .lower)
  | .escapeHigh, code => (none, .escapeLow (32 * code.val))
  | .escapeLow high, code => (some (char (zscii (high + code.val))), .none .lower)
  | .none alphabet, code =>
      if Alphabet.firstCode ≤ code.val then
        if alphabet = .punctuation ∧ code.val = Alphabet.firstCode then (none, .escapeHigh)
        else
          match alphabet.lookup code.val with
          | .ok c => (some (char c), .none .lower)
          | .error e => (some (fault e), .none .lower)
      else if code.val = 0 then (some (char ' '), .none alphabet)
      else if code.val ≤ 3 then
        match Checked.sub .abbreviationBlock code.val 1 with
        | .ok block => (none, .abbreviation block)
        | .error e => (some (fault e), .none .lower)
      else
        match Alphabet.ofShift code.val with
        | .ok shifted => (none, .none shifted)
        | .error e => (some (fault e), .none .lower)

/-- The symbols that codes spell from a given point on. -/
def spellFrom (p : Pending) : List Code → List Symbol
  | [] => []
  | code :: rest =>
      match next p code with
      | (some s, q) => s :: spellFrom q rest
      | (none, q) => spellFrom q rest

/-- The symbols that the codes of a string spell. -/
def spell (cs : List Code) : List Symbol := spellFrom (.none .lower) cs

end Symbol

end ZMachine.Text
