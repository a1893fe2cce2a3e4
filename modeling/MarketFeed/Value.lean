import MarketFeed.Decimal

/-!
# Field values

A field declares a kind, and its value is one of four shapes: the three textual kinds share the
byte shape, and a repeating group counts its rows as an unsigned number.
-/

namespace MarketFeed

inductive Kind where
  | int
  | uint
  | ascii
  | unicode
  | decimal
  | bytes
  | sequence
deriving DecidableEq, Repr, Inhabited

namespace Kind

def label : Kind → String
  | int => "Int"
  | uint => "UInt"
  | ascii => "Ascii"
  | unicode => "Unicode"
  | decimal => "Decimal"
  | bytes => "Bytes"
  | sequence => "Sequence"

/-- The kinds whose values are strings of bytes. -/
def isByteLike : Kind → Bool
  | ascii | unicode | bytes => true
  | _ => false

end Kind

inductive Value where
  | int (v : Int64)
  | uint (v : UInt64)
  | decimal (d : Decimal)
  | bytes (bs : List UInt8)
deriving DecidableEq, Repr, Inhabited

namespace Value

/-- The value a field of this kind holds before it is given one. -/
def zero : Kind → Value
  | .int => .int 0
  | .uint | .sequence => .uint 0
  | .decimal => .decimal .zero
  | .ascii | .unicode | .bytes => .bytes []

/-- Whether the value has the shape that fields of this kind take. -/
def hasKind : Value → Kind → Bool
  | .int _, .int => true
  | .uint _, .uint | .uint _, .sequence => true
  | .decimal _, .decimal => true
  | .bytes _, kind => kind.isByteLike
  | _, _ => false

def asInt : Value → Option Int64
  | .int v => some v
  | _ => none

def asUInt : Value → Option UInt64
  | .uint v => some v
  | _ => none

def asDecimal : Value → Option Decimal
  | .decimal d => some d
  | _ => none

def asBytes : Value → Option (List UInt8)
  | .bytes bs => some bs
  | _ => none

/-- The next integer: `none` for other shapes and past the largest one. -/
def successor : Value → Option Value
  | .int v => (toInt64? (v.toInt + 1)).map .int
  | .uint v => (toUInt64? (v.toNat + 1)).map .uint
  | _ => none

theorem zero_hasKind (kind : Kind) : (zero kind).hasKind kind = true := by
  cases kind <;> rfl

end Value

end MarketFeed
