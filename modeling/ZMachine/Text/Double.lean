/-! # Double precision

    Formats that read numbers into double precision refuse those that are too
    large for it. What they need to know is decided here on whole numbers, in
    exact arithmetic: which whole number of double precision is nearest to a
    given one, and from which number on there is no finite one that is. -/

namespace ZMachine.Text.Double

/-- The number of bits of a significand. -/
def precision : Nat := 53

/-- The nearest number with a significand of double precision; of two equally near
    ones, the one whose significand is even. -/
def nearest (n : Nat) : Nat :=
  if n < 1 <<< precision then n
  else
    let unit := 1 <<< (n.log2 + 1 - precision)
    let significand := n / unit
    let rest := n % unit
    if unit < 2 * rest ∨ (unit = 2 * rest ∧ significand % 2 = 1) then (significand + 1) * unit
    else significand * unit

/-- The least number that does not round to a finite one: the middle between the
    greatest finite number and the power of two after it. -/
def limit : Nat := 1 <<< 1024 - 1 <<< 970

end ZMachine.Text.Double
