/-!
# Doubles in scientific notation

Ten significant digits, from the exact value of the double: one before the point and nine behind it,
a tie going to the even digit, and the exponent without sign or padding.
-/

namespace MarketFeed

namespace Scientific

/-- The digits behind the point. -/
def places : Nat := 9

/-- The quotient rounded to the nearest integer, a tie to the even one. -/
def roundDiv (num den : Nat) : Nat :=
  let q := num / den
  let r := num % den
  if 2 * r < den then q
  else if den < 2 * r then q + 1
  else if q % 2 = 0 then q else q + 1

def digitCount (n : Nat) : Nat := (Nat.toDigits 10 n).length

/-- `num / den * 10 ^ k` as a fraction. -/
def scale (num den : Nat) (k : Int) : Nat × Nat :=
  if 0 ≤ k then (num * Nat.pow 10 k.natAbs, den) else (num, den * Nat.pow 10 k.natAbs)

/-- The exponent of the leading digit of a positive fraction. -/
def leadingExponent (num den : Nat) : Int :=
  let guess : Int := (digitCount num : Int) - (digitCount den : Int)
  let (n, d) := scale num den (-guess)
  if d ≤ n then guess else guess - 1

/-- The significant digits of a positive fraction, as one number, and their exponent. -/
def digits (num den : Nat) : Nat × Int :=
  let e := leadingExponent num den
  let (n, d) := scale num den (places - e)
  let significand := roundDiv n d
  if significand = Nat.pow 10 (places + 1) then (Nat.pow 10 places, e + 1) else (significand, e)

def layout (significand : Nat) (e : Int) : String :=
  let text := toString significand
  let (whole, fraction) := text.toList.splitAt 1
  String.ofList whole ++ "." ++ String.ofList fraction ++ "e" ++ toString e

/-- The text of a finite double without its sign, from its significand and binary exponent. -/
def renderFinite (significand : Nat) (exponent : Int) : String :=
  if significand = 0 then "0." ++ String.ofList (List.replicate places '0') ++ "e0"
  else
    let (s, e) :=
      if 0 ≤ exponent then digits (significand * Nat.pow 2 exponent.natAbs) 1
      else digits significand (Nat.pow 2 exponent.natAbs)
    layout s e

/-- The text of a double given by its bits. -/
def renderBits (bits : Nat) : String :=
  let sign := if bits / 0x8000000000000000 = 0 then "" else "-"
  let biased : Nat := bits / 0x10000000000000 % 0x800
  let fraction : Nat := bits % 0x10000000000000
  if biased = 2047 then if fraction = 0 then sign ++ "inf" else "NaN"
  else if biased = 0 then sign ++ renderFinite fraction (-1074)
  else sign ++ renderFinite (0x10000000000000 + fraction) ((biased : Int) - 1075)

def render (x : Float) : String := renderBits x.toBits.toNat

end Scientific

end MarketFeed
