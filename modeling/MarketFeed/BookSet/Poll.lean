import MarketFeed.Arbiter
import MarketFeed.Feed
import MarketFeed.Layout

/-!
# Polling feeds

One message at most is taken from every feed. The feeds are given back in either case; a feed that
fails ends the poll, and what the feeds before it brought is lost with it.
-/

namespace MarketFeed

/-- A message together with the layout of its template. -/
structure Located where
  message : Message
  layout : MessageLayout
deriving Repr, Inhabited

/-- The message with its layout, unless it ends the history or has none. -/
def Layouts.place? (ls : Layouts) (m : Message) : Option Located :=
  if m.resets then none else (ls.find? m.id).map fun layout => ⟨m, layout⟩

/-- What arbitrates between the increment feeds, and what is counted on the way. -/
structure Watch where
  arbiter : Arbiter
  stats : FeedStats
deriving Inhabited

namespace Watch

/-- Submits the number of a message, and says whether it is taken. -/
def observe (w : Watch) (feed : Nat) (number : UInt64) : Bool × Watch :=
  let (verdict, arbiter) := w.arbiter.observe feed number
  let stats := match verdict with
    | .gap missing => w.stats.countGap missing
    | _ => w.stats
  (verdict.isAccepted, { arbiter, stats })

/-- Judges a message from an increment feed: the incremental refresh that it is, if it is taken. -/
def judge (w : Watch) (layouts : Layouts) (feed : Nat) (m : Message) : Option Located × Watch :=
  match layouts.place? m with
  | none => (none, w)
  | some located =>
    match located.layout.seqNumOf m with
    | none => (none, w)
    | some number =>
      let (taken, w) := w.observe feed number
      if taken ∧ located.layout.messageTypeOf m = some .incrementalRefresh then (some located, w)
      else (none, w)

end Watch

/-- What a poll of the increment feeds leaves. -/
structure IncrementPoll where
  taken : Except FeedError (List Located)
  feeds : List Feed
  watch : Watch

/-- Polls the increment feeds from number `i` on, as far as each may be read. -/
def pollIncrements (layouts : Layouts) : Nat → List Feed → Watch → IncrementPoll
  | _, [], w => ⟨.ok [], [], w⟩
  | i, f :: feeds, w =>
    if !w.arbiter.shouldPoll i then
      let p := pollIncrements layouts (i + 1) feeds w
      { p with feeds := f :: p.feeds }
    else
      match f.receive with
      | (.error e, f) => ⟨.error e, f :: feeds, w⟩
      | (.ok none, f) =>
        let p := pollIncrements layouts (i + 1) feeds w
        { p with feeds := f :: p.feeds }
      | (.ok (some m), f) =>
        let (located, w) := w.judge layouts i m
        let p := pollIncrements layouts (i + 1) feeds w
        { p with taken := p.taken.map (located.toList ++ ·), feeds := f :: p.feeds }

/-- The snapshot that a message is, if it is one. -/
def Layouts.snapshot? (layouts : Layouts) (m : Message) : Option Located :=
  (layouts.place? m).filter fun located =>
    located.layout.messageTypeOf m == some .snapshotRefresh

/-- The next snapshot from any feed. A feed at its end starts over, so that the cycle repeats. -/
def pollSnapshots (layouts : Layouts) (network : Network) :
    List Feed → Except FeedError (Option Located) × List Feed
  | [] => (.ok none, [])
  | f :: feeds =>
    match if f.isAtEnd then f.reopenOn network else f.openOn network with
    | (.error e, f) => (.error e, f :: feeds)
    | (.ok (), f) =>
      match f.receive with
      | (.error e, f) => (.error e, f :: feeds)
      | (.ok m, f) =>
        match m.bind layouts.snapshot? with
        | some located => (.ok (some located), f :: feeds)
        | none =>
          let (found, feeds) := pollSnapshots layouts network feeds
          (found, f :: feeds)

end MarketFeed
