/-!
# Numerals

Natural numbers written in a base of at most sixteen.
-/

namespace MarketFeed

def hexDigit? (c : Char) : Option Nat :=
  if c.isDigit then some (c.toNat - '0'.toNat)
  else if 'a' ≤ c ∧ c ≤ 'f' then some (c.toNat - 'a'.toNat + 10)
  else if 'A' ≤ c ∧ c ≤ 'F' then some (c.toNat - 'A'.toNat + 10)
  else none

/-- The value of a digit of base `base`. -/
def digit? (base : Nat) (c : Char) : Option Nat := (hexDigit? c).filter (· < base)

/-- The number that `cs` writes in base `base`: digits only, and at least one. -/
def numeral? (base : Nat) (cs : List Char) : Option Nat :=
  if cs.isEmpty then none
  else cs.foldlM (fun n c => (digit? base c).map (base * n + ·)) 0

/-- The numeral of `n` in base sixteen, with small letters and no leading zeros. -/
def hexNumeral (n : Nat) : String := String.ofList (Nat.toDigits 16 n)

end MarketFeed
