import GraphQL.Decimal.Basic

/-!
# The nearest double

Which double a decimal number rounds to. Doubles are numbered in increasing order from zero by
their bits, and measured in units of `2 ^ -1074` they are whole numbers: all of them below
`2 ^ 53`, every other one up to `2 ^ 54`, every fourth up to `2 ^ 55`, and so on. So one
division, rounded to the nearest whole number, finds the nearest double, and its number needs no
case for small or for large magnitudes. Ties go to the even neighbour, and what is too large goes
to infinity.
-/

namespace GraphQL.Decimal

/-- The quotient rounded to the nearest whole number, a tie to the even one. -/
def roundDiv (num den : Nat) : Nat :=
  let quotient := num / den
  let twice := 2 * (num % den)
  if twice < den then quotient
  else if den < twice then quotient + 1
  else quotient + quotient % 2

/-- How many doubles there are from one power of two up to the next. -/
def doublesPerBinade : Nat := 0x10000000000000

/-- The bits of infinity. -/
def infinityBits : Nat := 0x7FF * doublesPerBinade

/-- The bits of the double nearest to `num / den`. -/
def nearestBits (num den : Nat) : Nat :=
  let units := num * Nat.pow 2 1074
  let binade := Nat.log2 (units / den) - 52
  min infinityBits (binade * doublesPerBinade + roundDiv units (den * Nat.pow 2 binade))

/-- The bits of the double nearest to `significand · 10 ^ exponent`. Powers of ten that can only
give zero or infinity are not computed. -/
def magnitudeBits (significand : Nat) (exponent : Int) : Nat :=
  if significand = 0 then 0
  else if 400 < exponent then infinityBits
  else if exponent < -(400 + Nat.log2 significand : Int) then 0
  else nearestBits (significand * Nat.pow 10 exponent.toNat) (Nat.pow 10 (-exponent).toNat)

/-- The bit that makes a double negative. -/
def signBit : Nat := 0x8000000000000000

/-- The bits of the double nearest to a decimal number. -/
def toBits (d : Decimal) : Nat :=
  magnitudeBits d.significand d.exponent + if d.negative then signBit else 0

/-- The double nearest to a decimal number. -/
def toFloat (d : Decimal) : Float := Float.ofBits (UInt64.ofNat d.toBits)

end GraphQL.Decimal
