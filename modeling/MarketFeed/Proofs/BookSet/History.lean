import MarketFeed.Proofs.BookSet.Moves

/-!
# The history of a book set

What a run does with the increment stream: the messages that the arbiter takes, its restarts, and
what the joins make of it. Both lists are read off from the journal of the run. The events have the
replays of joins, each of which is a move that is made; the turnings have what decides over which
books are active.
-/

namespace MarketFeed

/-- A message that the arbiter has taken, as it was when it was taken. -/
structure Taken where
  number : UInt64
  located : Located

def Located.isRefresh (l : Located) : Bool :=
  l.layout.messageTypeOf l.message == some .incrementalRefresh

inductive Event where
  | taken (t : Taken)
  /-- The arbiter forgets the stream. -/
  | restarted
  /-- A join replays what it has collected past a snapshot up to number `last`. -/
  | replayed (target : Nat) (last : UInt64) (buffered : List Located)

/-- What decides over the books of a run. -/
inductive Turning where
  | taken (t : Taken)
  /-- The arbiter forgets the stream, with the books as they are then. -/
  | restarted (cause : Restart) (books : Books)
  /-- A join of the book at a position succeeds. -/
  | joined (target : Nat)

/-- What is taken of a message from an increment feed. -/
def Watch.takenOf (w : Watch) (layouts : Layouts) (feed : Nat) (m : Message) : List Taken :=
  match layouts.place? m with
  | none => []
  | some located =>
    match located.layout.seqNumOf m with
    | none => []
    | some number => if (w.observe feed number).1 then [⟨number, located⟩] else []

/-- What a poll of the increment feeds takes, also if one of them fails in the end. -/
def takenBy (layouts : Layouts) : Nat → List Feed → Watch → List Taken
  | _, [], _ => []
  | i, f :: feeds, w =>
    if !w.arbiter.shouldPoll i then takenBy layouts (i + 1) feeds w
    else
      match f.receive with
      | (.error _, _) => []
      | (.ok none, _) => takenBy layouts (i + 1) feeds w
      | (.ok (some m), _) =>
        w.takenOf layouts i m ++ takenBy layouts (i + 1) feeds (w.judge layouts i m).2

namespace BookSet

/-- What a poll takes. -/
def accepted (set : BookSet) : List Taken := takenBy set.layouts 0 set.increments set.watch

def Move.events (set : BookSet) : Move → List Event
  | .polled => set.accepted.map .taken
  | .restarted _ => [.restarted]
  | .replayed target last buffered => [.replayed target last buffered]
  | _ => []

/-- The events of one call after another. -/
def history (calls : List Call) (set : BookSet) : List Event :=
  listed Move.events (moves calls set) set

def Move.turnings (set : BookSet) : Move → List Turning
  | .polled => set.accepted.map .taken
  | .restarted cause => [.restarted cause set.books]
  | .joined target => [.joined target]
  | _ => []

/-- The turnings of one call after another. -/
def turnings (calls : List Call) (set : BookSet) : List Turning :=
  listed Move.turnings (moves calls set) set

end BookSet

end MarketFeed
