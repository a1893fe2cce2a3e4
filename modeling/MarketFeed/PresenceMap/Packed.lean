import MarketFeed.PresenceMap

/-!
# Presence maps in memory

A presence map is kept as eight bytes and the number of them that are in use. Growing it brings
bytes into use that are there already, and a map without any is sent as the first of them, so those
that are not in use have to be zero.
-/

namespace MarketFeed

/-- The groups, one in each byte, as many as are in use. -/
structure PackedMap where
  bytes : Vector UInt8 PresenceMap.maxGroups := Vector.replicate _ 0
  len : Nat := 0
  len_le : len ≤ PresenceMap.maxGroups := by decide
deriving DecidableEq, Repr

namespace PackedMap

open PresenceMap (maxGroups)

/-- The bit, as it stands in its byte. -/
def mask (bit : Nat) : UInt8 := 1 <<< UInt8.ofNat (6 - bit % 7)

def isSet (p : PackedMap) (bit : Nat) : Bool :=
  if h : bit / 7 < p.len then
    have := p.len_le
    p.bytes[bit / 7] &&& mask bit != 0
  else false

/-- Sets a bit, growing the map to hold it, and tells whether there is room for it. -/
def set (p : PackedMap) (bit : Nat) : PackedMap × Bool :=
  if h : bit / 7 < maxGroups then
    ({ bytes := p.bytes.set (bit / 7) (p.bytes[bit / 7] ||| mask bit)
       len := if p.len ≤ bit / 7 then bit / 7 + 1 else p.len
       len_le := by
        have := p.len_le
        split <;> omega }, true)
  else (p, false)

def clear (p : PackedMap) : PackedMap :=
  { p with bytes := .replicate _ 0, len := 0, len_le := Nat.zero_le _ }

/-- The bytes to send: up to the last one in use that is not zero, but at least one. -/
def encodedLen (p : PackedMap) : Nat :=
  match (p.bytes.toList.take p.len).reverse.findIdx? (· != 0) with
  | some behind => p.len - behind
  | none => 1

def encode (p : PackedMap) : List UInt8 :=
  (p.bytes.toList.take p.encodedLen).mapIdx fun i b =>
    if i + 1 = p.encodedLen then b ||| 128 else b

/-- Reads on behind the bytes in use, as long as there is room. -/
def decodeOnto (p : PackedMap) : Read PackedMap
  | [] => if p.len < maxGroups then .dry else .garbled (.pmapOverflow maxGroups) []
  | b :: rest =>
    if h : p.len < maxGroups then
      let next : PackedMap := { bytes := p.bytes.set p.len (b &&& 127), len := p.len + 1, len_le := h }
      if isStop b then .done next rest else decodeOnto next rest
    else .garbled (.pmapOverflow maxGroups) (b :: rest)

def decode : Read PackedMap := decodeOnto {}

end PackedMap

end MarketFeed
