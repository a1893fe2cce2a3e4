import MarketFeed.Decimal

/-!
# Rescaling digit by digit

A decimal can be moved to another exponent one place at a time. On the way down each product is
checked, on the way up each last digit, and no exponent wraps before it has reached the target. Each
place brings it nearer, so the move ends, though between extreme exponents a mantissa of zero is
moved by almost as many places as there are words.
-/

namespace MarketFeed

namespace Decimal

theorem toInt_sub_one {x y : Int64} (h : x < y) : (y - 1).toInt = y.toInt - 1 := by
  have := x.le_toInt
  have := y.toInt_lt
  rw [Int64.lt_iff_toInt_lt] at h
  rw [Int64.toInt_sub, Int64.toInt_one, Int.bmod_eq_of_le (by omega) (by omega)]

theorem toInt_add_one {x y : Int64} (h : x < y) : (x + 1).toInt = x.toInt + 1 := by
  have := x.le_toInt
  have := y.toInt_lt
  rw [Int64.lt_iff_toInt_lt] at h
  rw [Int64.toInt_add, Int64.toInt_one, Int.bmod_eq_of_le (by omega) (by omega)]

/-- The places from one exponent down to another, none if it is not above. -/
def placesDown (x y : Int64) : Nat := (x.toInt - y.toInt).toNat

theorem placesDown_of_not_lt {x y : Int64} (h : ¬y < x) : placesDown x y = 0 := by
  rw [Int64.lt_iff_toInt_lt] at h
  simp only [placesDown]
  omega

theorem placesDown_sub_one {x y : Int64} (h : y < x) :
    placesDown x y = placesDown (x - 1) y + 1 := by
  simp only [placesDown, toInt_sub_one h]
  rw [Int64.lt_iff_toInt_lt] at h
  omega

theorem placesDown_add_one {x y : Int64} (h : y < x) :
    placesDown x y = placesDown x (y + 1) + 1 := by
  simp only [placesDown, toInt_add_one h]
  rw [Int64.lt_iff_toInt_lt] at h
  omega

/-- Moves the exponent down to the target, as long as the mantissa fits. -/
def moveDown (target mantissa exponent : Int64) : Option (Int64 × Int64) :=
  if target < exponent then
    match toInt64? (mantissa.toInt * 10) with
    | some mantissa => moveDown target mantissa (exponent - 1)
    | none => none
  else some (mantissa, exponent)
termination_by placesDown exponent target
decreasing_by next h => rw [placesDown_sub_one h]; exact Nat.lt_succ_self _

/-- Moves the exponent up to the target, as long as the last digit of the mantissa is zero. -/
def moveUp (target mantissa exponent : Int64) : Option Int64 :=
  if exponent < target then
    if mantissa % 10 = 0 then moveUp target (mantissa / 10) (exponent + 1) else none
  else some mantissa
termination_by placesDown target exponent
decreasing_by next h _ => rw [placesDown_add_one h]; exact Nat.lt_succ_self _

/-- The mantissa at another exponent, reached place by place. -/
def rescaleByDigits (d : Decimal) (target : Int64) : Option Int64 := do
  let (mantissa, exponent) ← moveDown target d.mantissa d.exponent
  moveUp target mantissa exponent

end Decimal

end MarketFeed
