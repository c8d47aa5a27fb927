import ZMachine.Text.Double
import ZMachine.Text.Reader

/-! # Decimal numbers

    A number in decimal notation, by its digits before and after the point and
    its exponent. -/

namespace ZMachine.Text

/-- The exponent of ten that stands for all greater ones. No text is so long that its digits
    could make up for it. -/
def maxExponent : Nat := 1000000000

/-- A number in decimal notation. -/
structure Decimal where
  isNegative : Bool := false
  whole : List Char
  fraction : List Char := []
  exponent : Int := 0
  deriving DecidableEq, Repr

namespace Decimal

/-- Whether a number rounds to a finite number of double precision. The limit is a whole
    number of 309 digits, so it is enough to compare with it the digits before the point. -/
def isFinite (d : Decimal) : Bool :=
  let digits := (d.whole ++ d.fraction).dropWhile (· == '0')
  let places : Int := digits.length + d.exponent - d.fraction.length
  if digits.isEmpty ∨ places < 309 then true
  else if 309 < places then false
  else
    let front := digits.take 309
    decide (decimalValue front * Nat.pow 10 (309 - front.length) < Double.limit)

end Decimal

end ZMachine.Text
