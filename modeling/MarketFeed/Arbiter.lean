import MarketFeed.Word

/-!
# Arbitration between redundant feeds

Several feeds carry the same numbered stream. Whichever delivers the next number first is taken; a
feed that jumps ahead is not read again until the others have caught up with it. Once every feed is
past a missing number, nobody can deliver it any more.
-/

namespace MarketFeed

inductive Verdict where
  /-- The first number since the last reset. -/
  | first
  /-- Just the number that was expected. -/
  | next
  /-- A number that has been taken already. -/
  | duplicate
  /-- Ahead of the expected number, of which so many are missing now. -/
  | gap (missing : UInt64)
  /-- Ahead again, while a gap is open. -/
  | ahead
deriving DecidableEq, Repr, Inhabited

def Verdict.isAccepted : Verdict → Bool
  | first | next => true
  | duplicate | gap _ | ahead => false

structure Arbiter where
  /-- The number taken last. -/
  last : Option UInt64 := none
  /-- The number seen last on each feed. -/
  received : List (Option UInt64)
  inGap : Bool := false
  /-- The ranges found missing, both ends included. -/
  gaps : List (UInt64 × UInt64) := []
  totalMissing : UInt64 := 0
deriving DecidableEq, Repr, Inhabited

namespace Arbiter

def create (feeds : Nat) : Arbiter where
  received := List.replicate feeds none

/-- Whether a feed may be read: it is not ahead of what has been taken. -/
def shouldPoll (a : Arbiter) (feed : Nat) : Bool :=
  match (a.received[feed]?).join, a.last with
  | some received, some last => received ≤ last
  | _, _ => true

/-- Records a number that arrived on a feed and decides whether it is taken. -/
def observe (a : Arbiter) (feed : Nat) (number : UInt64) : Verdict × Arbiter :=
  let a := { a with received := a.received.set feed (some number) }
  match a.last with
  | none => (.first, { a with last := some number })
  | some last =>
    if number = last + 1 then (.next, { a with last := some number, inGap := false })
    else if last < number then
      if a.inGap then (.ahead, a)
      else
        let missing := number - (last + 1)
        (.gap missing, { a with
          gaps := a.gaps ++ [(last + 1, number - 1)]
          totalMissing := saturatingAdd a.totalMissing missing
          inGap := true })
    else (.duplicate, a)

/-- Whether a gap is open that no feed can fill. -/
def isStalled (a : Arbiter) : Bool :=
  match a.last with
  | none => false
  | some last => a.inGap && a.received.all fun r => r.any fun r => last < r

def isMissing (a : Arbiter) (number : UInt64) : Bool :=
  a.gaps.any fun (start, stop) => start ≤ number && number ≤ stop

/-- Forgets the stream, so that the next number begins a new one. The gaps found are kept. -/
def reset (a : Arbiter) : Arbiter :=
  { a with last := none, received := a.received.map fun _ => none, inGap := false }

end Arbiter

end MarketFeed
