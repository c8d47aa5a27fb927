/-! # Numerals

    How numbers are written in reports and listings: lower-case hexadecimal,
    padded on the left to a least width, with or without the `0x` mark, and
    signed or unsigned decimal. -/

namespace ZMachine.Numeral

/-- Pads `digits` on the left with `fill` to at least `width` characters. -/
def padLeft (fill : Char) (width : Nat) (digits : List Char) : List Char :=
  List.replicate (width - digits.length) fill ++ digits

/-- The hexadecimal digits of `n`, at least `width` of them. -/
def hex (width n : Nat) : String :=
  String.ofList (padLeft '0' width (Nat.toDigits 16 n))

/-- An address in hexadecimal: the mark `0x` and at least four digits. -/
def address (n : Nat) : String :=
  "0x" ++ hex 4 n

/-- The decimal digits of `n`, padded with `fill` to at least `width` characters. -/
def decimal (fill : Char) (width n : Nat) : String :=
  String.ofList (padLeft fill width (Nat.toDigits 10 n))

/-- The decimal numeral of an integer, with a leading minus sign below zero. -/
def integer (i : Int) : String :=
  if i < 0 then "-" ++ decimal '0' 1 i.natAbs else decimal '0' 1 i.natAbs

/-- A list of words as four-digit hexadecimal numbers between brackets. -/
def words (ws : List UInt16) : String :=
  "[" ++ String.intercalate ", " (ws.map fun w => hex 4 w.toNat) ++ "]"

end ZMachine.Numeral
