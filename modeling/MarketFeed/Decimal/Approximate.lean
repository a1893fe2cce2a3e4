import MarketFeed.Decimal

/-!
# Decimals as floating-point numbers
-/

namespace MarketFeed

/-- A power by repeated squaring, each product rounded. -/
def floatPower (base : Float) (n : Nat) (acc : Float) : Float :=
  let acc := if n % 2 = 1 then acc * base else acc
  if n < 2 then acc else floatPower (base * base) (n / 2) acc
termination_by n

/-- A power of ten; a negative one is the reciprocal of the positive one. -/
def powerOfTen (exponent : Int) : Float :=
  let power := floatPower 10 exponent.natAbs 1
  if exponent < 0 then 1 / power else power

namespace Decimal

/-- The decimal as a double, from its mantissa and the low 32 bits of its exponent. -/
def toFloat (d : Decimal) : Float := d.mantissa.toFloat * powerOfTen d.exponent.toInt32.toInt

end Decimal

end MarketFeed
