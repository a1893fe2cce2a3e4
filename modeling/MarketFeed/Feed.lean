import MarketFeed.Config.Basic
import MarketFeed.Session.Basic

/-!
# Feeds

A feed is a named transport bound to a session. What opening a transport gives is told by the
network it is on; opening it again starts from the beginning with a fresh session.
-/

namespace MarketFeed

/--
A datagram without the preamble of so many bytes in front of it, and the packet number that a
preamble of four bytes or more begins with. There is none if the datagram is shorter.
-/
def splitPreamble (preamble : Nat) (datagram : List UInt8) : Option (Option UInt32 × List UInt8) :=
  if datagram.length < preamble then none
  else
    let number := match datagram with
      | a :: b :: c :: d :: _ =>
        if 4 ≤ preamble then
          some (.ofNat (a.toNat + 256 * (b.toNat + 256 * (c.toNat + 256 * d.toNat))))
        else none
      | _ => none
    some (number, datagram.drop preamble)

/-- The source that a transport opens, if it can be opened. -/
abbrev Network := Transport → Option Source

inductive FeedError where
  | cannotOpen (feed : String)
  | session (error : SessionError)
deriving DecidableEq, Repr, Inhabited

structure Feed where
  config : FeedConfig
  templates : TemplateSet
  session : Option Session := none

namespace Feed

def isActive (f : Feed) : Bool := f.session.isSome

/-- Whether the last read found the end of the transport. -/
def isAtEnd (f : Feed) : Bool := f.session.any (·.atEnd)

/-- Opens the transport, unless it is open. -/
def openOn (f : Feed) (network : Network) : Except FeedError Unit × Feed :=
  match f.session with
  | some _ => (.ok (), f)
  | none =>
    match network f.config.transport with
    | none => (.error (.cannotOpen f.config.name), f)
    | some source =>
      let options : SessionOptions := {
        blocking := f.config.blocking
        resetOnReset := f.config.resetOnReset
        datagrams := f.config.transport.isMulticast }
      (.ok (), { f with session := some (.create f.templates source options) })

def close (f : Feed) : Feed := { f with session := none }

/-- Starts over; a feed that cannot be opened again stays closed. -/
def reopenOn (f : Feed) (network : Network) : Except FeedError Unit × Feed :=
  f.close.openOn network

/-- The next message, if the feed is open and has one. -/
def receive (f : Feed) : Except FeedError (Option Message) × Feed :=
  match f.session with
  | none => (.ok none, f)
  | some s =>
    match s.receive with
    | (.ok m, s) => (.ok m, { f with session := some s })
    | (.error e, s) => (.error (.session e), { f with session := some s })

end Feed

end MarketFeed
