import ZMachine.Text.Decimal

/-! # JSON numbers

    A number is read as a significand of 64 bits and a power of ten. Digits
    that no longer fit into the significand are left out, but those before the
    point still count for the power. Its value is the product of the two, each
    rounded to double precision, and a number is refused if that product does
    not round to a finite one. -/

namespace ZMachine.Json

open Text

/-- A number: a significand and a power of ten. -/
structure Number where
  isNegative : Bool := false
  significand : Nat
  exponent : Int
  deriving DecidableEq, Repr

namespace Number

/-- Appends digits to a significand as long as it has 64 bits; yields also how many digits
    are left out. -/
def append : (significand : Nat) → (digits : List Char) → Nat × Nat
  | n, [] => (n, 0)
  | n, c :: rest =>
      let next := 10 * n + (c.toNat - '0'.toNat)
      if next < 0x10000000000000000 then append next rest else (n, rest.length + 1)

/-- The number with given digits before and after the point and a given exponent. -/
def ofDigits (isNegative : Bool) (whole fraction : List Char) (exponent : Int) : Number :=
  let (front, surplus) := append 0 whole
  let (significand, omitted) := append front fraction
  { isNegative, significand
    exponent := exponent + surplus - (fraction.length - omitted : Nat) }

/-- The greatest power of ten that has a finite number of double precision. -/
def maxPower : Nat := 308

/-- Whether the value of a number is finite in double precision. A power of ten with a
    negative exponent only divides. -/
def isFinite (n : Number) : Bool :=
  if n.significand = 0 ∨ n.exponent < 0 then true
  else if maxPower < n.exponent then false
  else
    decide (Double.nearest n.significand * Double.nearest (Nat.pow 10 n.exponent.toNat)
      < Double.limit)

end Number

/-! ## Reading -/

/-- Splits off the longest front of decimal digits. -/
def spanDigits (cs : List Char) : List Char × List Char := cs.span Char.isDigit

/-- Reads the exponent of a number, if it has one. -/
def readExponent : Reader Int
  | e :: rest =>
      if e = 'e' ∨ e = 'E' then
        let (sign, rest) : Int × List Char := match rest with
          | '+' :: rest => (1, rest)
          | '-' :: rest => (-1, rest)
          | rest => (1, rest)
        match spanDigits rest with
        | ([], _) => none
        | (ds, rest) => some (sign * cappedValue maxExponent ds, rest)
      else some (0, e :: rest)
  | [] => some (0, [])

/-- Reads the fraction of a number, if it has one. -/
def readFraction : Reader (List Char)
  | '.' :: rest =>
      match spanDigits rest with
      | ([], _) => none
      | (ds, rest) => some (ds, rest)
  | rest => some ([], rest)

/-- Reads the digits before the point; a zero in front stands alone. -/
def readWhole : Reader (List Char)
  | '0' :: c :: rest => if c.isDigit then none else some (['0'], c :: rest)
  | cs =>
      match spanDigits cs with
      | ([], _) => none
      | (ds, rest) => some (ds, rest)

/-- Reads a number. -/
def readNumber : Reader Number := fun cs => do
  let (isNegative, cs) := match cs with
    | '-' :: rest => (true, rest)
    | rest => (false, rest)
  let (whole, cs) ← readWhole cs
  let (fraction, cs) ← readFraction cs
  let (exponent, cs) ← readExponent cs
  let n := Number.ofDigits isNegative whole fraction exponent
  if n.isFinite then pure (n, cs) else none

end ZMachine.Json
