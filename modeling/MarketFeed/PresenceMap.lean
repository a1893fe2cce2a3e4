import MarketFeed.Wire.StopBit

/-!
# Presence maps

A presence map is a stop-bit run of at most eight groups, in front of a message and of every row
that needs one. Bit 0 is the most significant data bit of the first group, and bits behind the last
group read as unset.
-/

namespace MarketFeed

namespace PresenceMap

/-- The most groups of a presence map. -/
def maxGroups : Nat := 8

/-- The first bit index past every presence map. -/
def maxBits : Nat := maxGroups * 7

end PresenceMap

structure PresenceMap where
  groups : List (BitVec 7) := []
  size_le : groups.length ≤ PresenceMap.maxGroups := by decide
deriving DecidableEq, Repr

namespace PresenceMap

def empty : PresenceMap := {}

instance : Inhabited PresenceMap := ⟨empty⟩

/-- The map with bit 0 only. -/
def first : PresenceMap where
  groups := [BitVec.twoPow 7 6]

/-- The number of groups read, or touched while writing. -/
def size (m : PresenceMap) : Nat := m.groups.length

def isSet (m : PresenceMap) (bit : Nat) : Bool :=
  (m.groups[bit / 7]?).any (·.getMsbD (bit % 7))

/-- Whether no bit is set. -/
def isEmpty (m : PresenceMap) : Bool := m.groups.all (· == 0)

/-- The groups, filled up with zeros to at least `n`. -/
def padded (m : PresenceMap) (n : Nat) : List (BitVec 7) :=
  m.groups ++ List.replicate (n - m.groups.length) 0

/-- Sets a bit, growing the map to hold it: `none` past the capacity. -/
def set? (m : PresenceMap) (bit : Nat) : Option PresenceMap :=
  if h : bit / 7 < maxGroups then
    some {
      groups := (m.padded (bit / 7 + 1)).modify (bit / 7) (· ||| BitVec.twoPow 7 (6 - bit % 7))
      size_le := by
        have := m.size_le
        simp only [List.length_modify, padded, List.length_append, List.length_replicate]
        omega }
  else none

/-- The groups without the zeros at their end. -/
def significant (m : PresenceMap) : List (BitVec 7) :=
  (m.groups.reverse.dropWhile (· == 0)).reverse

/-- The bytes that the written map takes. -/
def writtenSize (m : PresenceMap) : Nat := max 1 m.significant.length

def write (m : PresenceMap) : List UInt8 :=
  closeRun (m.significant.map fun g => .ofNat g.toNat)

/-- Groups up to the stop bit, at most `budget` of them. -/
def readGroups : (budget : Nat) → Read { gs : List (BitVec 7) // gs.length ≤ budget }
  | 0, bytes => .garbled (.pmapOverflow maxGroups) bytes
  | _ + 1, [] => .dry
  | budget + 1, b :: rest =>
    let g := BitVec.ofNat 7 b.toNat
    if isStop b then .done ⟨[g], by simp⟩ rest
    else
      match readGroups budget rest with
      | .done ⟨gs, h⟩ rest => .done ⟨g :: gs, by simpa using h⟩ rest
      | .dry => .dry
      | .garbled e rest => .garbled e rest

def read : Read PresenceMap := do
  let ⟨groups, size_le⟩ ← readGroups maxGroups
  return { groups, size_le }

end PresenceMap

end MarketFeed
