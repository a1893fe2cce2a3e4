import MarketFeed.Word

/-!
# Scaled decimals

A decimal is `mantissa * 10 ^ exponent`, both 64-bit. The same number has many such forms, and
`rescale` moves between them without losing a digit.
-/

namespace MarketFeed

structure Decimal where
  mantissa : Int64
  exponent : Int64
deriving DecidableEq, Repr, Inhabited

namespace Decimal

/-- The exponents a message may carry. -/
def minExponent : Int64 := -63

def maxExponent : Int64 := 63

def hasValidExponent (d : Decimal) : Bool :=
  minExponent ≤ d.exponent && d.exponent ≤ maxExponent

def zero : Decimal := ⟨0, 0⟩

/--
The mantissa of `d` at another exponent: `none` when digits would be lost or the result does not
fit. Twenty places are more than a nonzero 64-bit mantissa can be moved, either way.
-/
def rescale (d : Decimal) (target : Int64) : Option Int64 :=
  let mantissa := d.mantissa.toInt
  let places := d.exponent.toInt - target.toInt
  if mantissa = 0 then some 0
  else if 20 ≤ places.natAbs then none
  else if 0 ≤ places then toInt64? (mantissa * Nat.pow 10 places.natAbs)
  else if mantissa % Nat.pow 10 places.natAbs = 0 then
    toInt64? (mantissa / Nat.pow 10 places.natAbs)
  else none

/-- The mantissa, the letter `e`, the exponent. -/
def render (d : Decimal) : String :=
  toString d.mantissa.toInt ++ "e" ++ toString d.exponent.toInt

end Decimal

end MarketFeed
