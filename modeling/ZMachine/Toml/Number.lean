import ZMachine.Toml.Value

/-! # Numbers

    Single underscores may stand between digits. Whole numbers have 64 bits with
    a sign; those in another base than ten have no sign. -/

namespace ZMachine.Toml

open Text

/-- Reads digits, at least one, with single underscores between them, which are dropped. -/
def readDigits (isDigit : Char → Bool) : Reader (List Char)
  | [] => none
  | c :: rest =>
      if isDigit c then
        match rest with
        | '_' :: rest => (readDigits isDigit rest).map (prepend c)
        | d :: rest =>
            if isDigit d then (readDigits isDigit (d :: rest)).map (prepend c)
            else some ([c], d :: rest)
        | [] => some ([c], [])
      else none

/-- The whole number with a given sign and given digits, if it has 64 bits with a sign. -/
def integer? (base : Nat) (isNegative : Bool) (digits : List Char) : Option Value := do
  let n ← digitsBelow? base 0x8000000000000001 digits
  if isNegative then pure (.integer (-(n : Int)))
  else if n < 0x8000000000000000 then pure (.integer n)
  else none

/-- Reads a whole number in a base other than ten, after the letter for the base. -/
def readBased (base : Nat) : Reader Value := fun cs => do
  let (digits, rest) ← readDigits (fun c => (digit? base c).isSome) cs
  let v ← integer? base false digits
  pure (v, rest)

/-- Reads a sign, if there is one; yields whether the number is negative. -/
def readSign : List Char → Bool × List Char
  | '+' :: rest => (false, rest)
  | '-' :: rest => (true, rest)
  | cs => (false, cs)

/-- Reads the digits before the point; a zero in front stands alone. -/
def readWhole : Reader (List Char)
  | '0' :: rest => some (['0'], rest)
  | cs => readDigits Char.isDigit cs

/-- Reads an exponent after its letter. -/
def readExponent : Reader Int := fun cs => do
  let (isNegative, cs) := readSign cs
  let (digits, rest) ← readDigits Char.isDigit cs
  let n : Int := cappedValue maxExponent digits
  pure (if isNegative then -n else n, rest)

/-- Reads a fraction, if there is one. -/
def readFraction : Reader (List Char)
  | '.' :: rest => readDigits Char.isDigit rest
  | cs => some ([], cs)

/-- A number that need not be whole; a positive one that is too large for double
    precision is refused. -/
def real? (d : Decimal) : Option Value :=
  if d.isNegative || d.isFinite then some (.float (.decimal d)) else none

/-- Reads a number in decimal notation. One with neither a fraction nor an exponent is
    whole. -/
def readDecimal : Reader Value := fun cs => do
  let (isNegative, cs) := readSign cs
  let (whole, cs) ← readWhole cs
  let (fraction, cs) ← readFraction cs
  match cs with
  | 'e' :: rest | 'E' :: rest => do
      let (exponent, rest) ← readExponent rest
      let v ← real? { isNegative, whole, fraction, exponent }
      pure (v, rest)
  | rest => do
      let v ← if fraction.isEmpty then integer? 10 isNegative whole
        else real? { isNegative, whole, fraction }
      pure (v, rest)

/-- Reads a number. -/
def readNumber : Reader Value
  | '0' :: 'x' :: rest => readBased 16 rest
  | '0' :: 'o' :: rest => readBased 8 rest
  | '0' :: 'b' :: rest => readBased 2 rest
  | cs =>
      match readSign cs with
      | (isNegative, 'i' :: 'n' :: 'f' :: rest) => some (.float (.infinity isNegative), rest)
      | (_, 'n' :: 'a' :: 'n' :: rest) => some (.float .notANumber, rest)
      | _ => readDecimal cs

end ZMachine.Toml
