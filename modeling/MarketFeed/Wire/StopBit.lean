import MarketFeed.Wire.Outcome

/-!
# Stop-bit runs

Integers and ASCII text travel as runs of seven-bit groups, the high bit marking the last byte of a
run. Integers are big-endian; a signed one is in two's complement, and bit `0x40` of its first byte
is the sign.
-/

namespace MarketFeed

/-- Whether the byte ends its run. -/
def isStop (b : UInt8) : Bool := 128 ≤ b

/-- The seven data bits of a byte. -/
def groupOf (b : UInt8) : Nat := b.toNat % 128

/-- The most bytes an integer may take. -/
def maxIntegerBytes : Nat := 10

/-- The most bytes a text run may take. -/
def maxTextBytes : Nat := 256

/--
Reads on from `value`, the integer of the groups so far, for at most so many bytes. An integer that
has no room for seven more bits has no room for the byte that brings them.
-/
def readUIntFrom : Nat → Nat → Read UInt64
  | 0, _, bytes => .garbled .integerOverflow bytes
  | _ + 1, _, [] => .dry
  | budget + 1, value, b :: rest =>
    if 0x200000000000000 ≤ value then .garbled .integerOverflow rest
    else
      let value := value * 128 + groupOf b
      if isStop b then .done (.ofNat value) rest else readUIntFrom budget value rest

def readUInt : Read UInt64 := readUIntFrom maxIntegerBytes 0

def readIntFrom : Nat → Int → Read Int64
  | 0, _, bytes => .garbled .integerOverflow bytes
  | _ + 1, _, [] => .dry
  | budget + 1, value, b :: rest =>
    if value < -0x100000000000000 ∨ 0x100000000000000 ≤ value then .garbled .integerOverflow rest
    else
      let value := value * 128 + groupOf b
      if isStop b then .done (.ofInt value) rest else readIntFrom budget value rest

/-- A negative integer starts from `-1`, which is all ones to the left of the run. -/
def readInt : Read Int64
  | [] => .dry
  | b :: rest => readIntFrom maxIntegerBytes (if 64 ≤ groupOf b then -1 else 0) (b :: rest)

def readTextFrom : Nat → Read (List UInt8)
  | 0, bytes => .garbled (.stringOverflow maxTextBytes) bytes
  | _ + 1, [] => .dry
  | budget + 1, b :: rest =>
    if isStop b then .done [b &&& 127] rest
    else
      match readTextFrom budget rest with
      | .done text rest => .done ((b &&& 127) :: text) rest
      | .dry => .dry
      | .garbled e rest => .garbled e rest

/-- The data bits of every byte up to the stop bit. -/
def readText : Read (List UInt8) := readTextFrom maxTextBytes

/-- The number of binary digits of `n`, zero having none. -/
def bitLength (n : Nat) : Nat := if n = 0 then 0 else n.log2 + 1

/-- The bytes that an unsigned integer takes. -/
def uintSize (v : UInt64) : Nat := max 1 ((bitLength v.toNat + 6) / 7)

/-- The bytes that a signed integer takes, its sign bit included. -/
def intSize (v : Int64) : Nat :=
  let magnitude := if 0 ≤ v.toInt then v.toInt else -v.toInt - 1
  (bitLength magnitude.toNat + 1 + 6) / 7

/-- The low `count` groups of `n`, the most significant first. -/
def groups : Nat → Int → List UInt8
  | 0, _ => []
  | count + 1, n => groups count (n / 128) ++ [.ofNat (n % 128).toNat]

/-- The run with the stop bit on its last byte; an empty run becomes a lone stop byte. -/
def closeRun : List UInt8 → List UInt8
  | [] => [128]
  | [b] => [b ||| 128]
  | b :: rest => b :: closeRun rest

def writeUInt (v : UInt64) : List UInt8 := closeRun (groups (uintSize v) v.toNat)

def writeInt (v : Int64) : List UInt8 := closeRun (groups (intSize v) v.toInt)

/-- Only the low seven bits of each byte are written. -/
def writeText (text : List UInt8) : List UInt8 := closeRun (text.map (· &&& 127))

end MarketFeed
