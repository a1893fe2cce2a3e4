import MarketFeed.Yaml.Numeral

/-!
# The sense of a text without quotes

What a text without quotes stands for by itself: nothing, a truth value, an integer, another number,
or only a text. A reader that knows what it wants asks for that instead, as for a truth value, which
then has more spellings.
-/

namespace MarketFeed.Yaml

def isNull (text : String) : Bool := ["", "~", "null", "Null", "NULL"].contains text

/-- A truth value by itself, in letters of either case. -/
def truth? (text : String) : Option Bool :=
  match text.toLower with
  | "true" => some true
  | "false" => some false
  | _ => none

/-- A truth value where one is expected. -/
def switch? (text : String) : Option Bool :=
  if ["true", "yes", "y", "on"].contains text.toLower then some true
  else if ["false", "no", "n", "off"].contains text.toLower then some false
  else none

/-! ## Integers -/

/-- A number without sign: decimal without leading zeros, or in base 16, 8 or 2 and marked so. -/
def magnitude? : List Char → Option Nat
  | '0' :: 'x' :: cs => numeral? 16 cs
  | '0' :: 'o' :: cs => numeral? 8 cs
  | '0' :: 'b' :: cs => numeral? 2 cs
  | ['0'] => some 0
  | '0' :: _ => none
  | cs => numeral? 10 cs

def unsigned? : List Char → Option Nat
  | '+' :: cs => magnitude? cs
  | cs => magnitude? cs

def integer? : List Char → Option Int
  | '-' :: cs => (magnitude? cs).map fun n => -(n : Int)
  | cs => (unsigned? cs).map Int.ofNat

/-- Whether an integer, signed or not, has at most 128 bits. -/
def isInteger128 (n : Int) : Bool := -(Nat.pow 2 127 : Int) ≤ n && n < Nat.pow 2 128

/-- Whether an integer, signed or not, has at most 64 bits. -/
def isInteger64 (n : Int) : Bool := -0x8000000000000000 ≤ n && n < 0x10000000000000000

/-! ## Other numbers -/

/-- What an exponent adds to the power of ten; there may be none. -/
def exponent? : List Char → Option Int
  | [] => some 0
  | e :: cs =>
    if e = 'e' || e = 'E' then
      match cs with
      | '-' :: cs => (numeral? 10 cs).map fun n => -(n : Int)
      | '+' :: cs | cs => (numeral? 10 cs).map Int.ofNat
    else none

/-- The digits of a decimal numeral without sign, and the power of ten that they count. -/
def decimal? (cs : List Char) : Option (List Char × Int) :=
  let (whole, rest) := cs.span Char.isDigit
  let (fraction, rest) := match rest with
    | '.' :: rest => rest.span Char.isDigit
    | rest => ([], rest)
  if whole.isEmpty && fraction.isEmpty then none
  else (exponent? rest).map fun e => (whole ++ fraction, e - fraction.length)

/-- The least number that is rounded up to a power of two which no double reaches. -/
def doubleBound : Nat := Nat.pow 2 1024 - Nat.pow 2 970

/-- Whether the digits, counted in this power of ten, are nearest to a finite double. -/
def isFinite (digits : List Char) (exponent : Int) : Bool :=
  let digits := digits.dropWhile (· = '0')
  let size := digits.length + exponent
  match numeral? 10 digits with
  | none => true
  | some n =>
    if size ≠ 309 then size < 309
    else if 0 ≤ exponent then n * Nat.pow 10 exponent.natAbs < doubleBound
    else n < doubleBound * Nat.pow 10 exponent.natAbs

/-- Whether a text is a number, be it infinite or none by its name. -/
def isNumber (text : String) : Bool :=
  let unsigned := match text.toList with
    | '+' :: cs | '-' :: cs => cs
    | cs => cs
  let zeroPadded := 1 < unsigned.length && unsigned.head? == some '0' && unsigned.all Char.isDigit
  (!zeroPadded && (decimal? unsigned).any fun (digits, e) => isFinite digits e) ||
    [".inf", ".Inf", ".INF"].contains (String.ofList unsigned) ||
    [".nan", ".NaN", ".NAN"].contains text

/-! ## All of them -/

inductive Sense where
  | null
  | truth (value : Bool)
  | integer (value : Int)
  /-- A number that is not written as an integer, or has more than 128 bits. -/
  | number
  | text
deriving DecidableEq, Repr, Inhabited

def sense (text : String) : Sense :=
  if isNull text then .null
  else match truth? text, (integer? text.toList).filter isInteger128 with
    | some b, _ => .truth b
    | none, some n => .integer n
    | none, none => if isNumber text then .number else .text

end MarketFeed.Yaml
