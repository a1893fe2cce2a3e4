/-!
# Network addresses

Where feeds are received from.
-/

namespace MarketFeed

structure Ipv4 where
  a : UInt8
  b : UInt8
  c : UInt8
  d : UInt8
deriving DecidableEq, Repr, Inhabited

/-- The address that stands for any. -/
def Ipv4.unspecified : Ipv4 := ⟨0, 0, 0, 0⟩

structure Ipv6 where
  groups : List UInt16
  length_groups : groups.length = 8
deriving DecidableEq, Repr

instance : Inhabited Ipv6 := ⟨⟨List.replicate 8 0, rfl⟩⟩

/-- An address and a port on it. -/
inductive Endpoint where
  | v4 (ip : Ipv4) (port : UInt16)
  | v6 (ip : Ipv6) (scope : UInt32) (port : UInt16)
deriving DecidableEq, Repr, Inhabited

end MarketFeed
