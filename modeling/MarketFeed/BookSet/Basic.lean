import MarketFeed.BookSet.Books
import MarketFeed.BookSet.Poll

/-!
# Book sets

A book set keeps books in step with redundant increment feeds. A book joins by collecting increments
until a snapshot of it arrives that reaches into them, and by replaying those past the snapshot. A
gap that no feed can fill makes every subscribed book join again.
-/

namespace MarketFeed

inductive SyncError where
  | feed (error : FeedError)
  | layout (error : LayoutError)
  | config (error : ConfigError)
  | unknownBook (securityId : UInt64)
  | joinExhausted (symbol : String) (polls : Nat)
deriving Repr, Inhabited

/-- The text of an error of the book set's own. -/
def SyncError.message? : SyncError → Option String
  | unknownBook securityId => some s!"no book with security id {securityId}"
  | joinExhausted symbol polls => some s!"join of {symbol} gave up after {polls} polls"
  | feed _ | layout _ | config _ => none

/-- What an update came to. -/
inductive Tick where
  | idle
  /-- So many increments were taken. -/
  | applied (count : Nat)
  /-- Every increment feed is past a missing number. -/
  | stalled
  /-- The books at these positions missed rows. -/
  | desynced (books : List Nat)
  | recovered
deriving DecidableEq, Repr, Inhabited

/-- Positions of books as bits of a word. -/
def bookMask (books : List Nat) : UInt64 :=
  books.foldl (fun mask i => mask ||| (1 : UInt64) <<< UInt64.ofNat i) 0

structure BookSet where
  network : Network
  policy : SyncConfig
  layouts : Layouts
  increments : List Feed
  snapshots : List Feed
  books : Books
  watch : Watch
  /-- The positions of books that are known to have missed rows. -/
  desynced : List Nat := []

namespace BookSet

def create (network : Network) (config : Config) (templates : TemplateSet) :
    Except SyncError BookSet := do
  config.validate.mapError .config
  let layouts ← (Layouts.ofTemplates templates).mapError .layout
  let feeds (kind : FeedKind) : List Feed :=
    ((config.feedsOf kind).take Config.maxFeeds).map fun config => { config, templates }
  return {
    network
    policy := config.sync
    layouts
    increments := feeds .increment
    snapshots := feeds .snapshot
    books := .ofConfigs (config.books.take Config.maxBooks)
    watch := { arbiter := .create (feeds .increment).length, stats := .empty } }

variable (set : BookSet)

def book? (securityId : UInt64) : Option Book :=
  (set.books.byId? securityId).bind (set.books.list[·]?)

def bookBySymbol? (symbol : String) : Option Book :=
  (set.books.bySymbol? (utf8Bytes symbol)).bind (set.books.list[·]?)

/-- The books changed since the last update began. -/
def touchedBooks : List Book :=
  (set.books.list.zipIdx.filter fun (_, i) => set.books.touched.contains i).map (·.1)

/-- Changes what is counted. -/
def count (f : FeedStats → FeedStats) : BookSet :=
  { set with watch := { set.watch with stats := f set.watch.stats } }

/-- Forgets the numbers of the increment stream. -/
def resetArbiter : BookSet :=
  { set with watch := { set.watch with arbiter := set.watch.arbiter.reset } }

/-! ## Opening and closing -/

/-- Opens feed after feed, up to the first that cannot be opened. -/
def openFeeds (network : Network) : List Feed → Except FeedError Unit × List Feed
  | [] => (.ok (), [])
  | f :: feeds =>
    match f.openOn network with
    | (.error e, f) => (.error e, f :: feeds)
    | (.ok (), f) =>
      let (result, feeds) := openFeeds network feeds
      (result, f :: feeds)

def openIncrements : Except SyncError Unit × BookSet :=
  let (result, increments) := openFeeds set.network set.increments
  (result.mapError .feed, { set with increments })

/-- Opens the increment feeds and expects a new stream from them. -/
def openAll : Except SyncError Unit × BookSet :=
  match set.openIncrements with
  | (.ok (), set) => (.ok (), set.resetArbiter)
  | (.error e, set) => (.error e, set)

def closeSnapshots : BookSet := { set with snapshots := set.snapshots.map Feed.close }

def closeAll : BookSet :=
  { set.closeSnapshots with increments := set.increments.map Feed.close }

/-! ## Increments -/

/-- Polls the increment feeds: what they brought, or the failure of one. -/
def poll : Except SyncError (List Located) × BookSet :=
  let p := pollIncrements set.layouts 0 set.increments set.watch
  (p.taken.mapError .feed, { set with increments := p.feeds, watch := p.watch })

/-- Applies an incremental refresh to all active books. -/
def applySteady (located : Located) : BookSet :=
  let (lost, books) := set.books.applyIncrement located.message located.layout .steady
  { set with books, desynced := lost.foldr List.insert set.desynced }

/-! ## Joining -/

/-- What an attempt to join has collected. -/
structure Attempt where
  /-- The increments taken, the newest first. -/
  buffered : List Located := []
  /-- The number of the oldest increment. -/
  firstNumber : Option UInt64 := none
deriving Inhabited

/-- The attempt with one more increment. -/
def Attempt.add (a : Attempt) (located : Located) : Attempt where
  buffered := located :: a.buffered
  firstNumber := a.firstNumber <|> located.layout.seqNumOf located.message

/-- Whether a snapshot taken after number `last` leaves no hole in front of the increments. -/
def Attempt.isReachedBy (a : Attempt) (last : UInt64) : Bool :=
  a.firstNumber.any fun first => first.toNat ≤ last.toNat + 1

/--
Replays increments past number `last` to the book at a position, and counts them: `none` as soon as
the book is lost.
-/
def replay (target : Nat) (last : UInt64) : List Located → Books → Option Nat × Books
  | [], bs => (some 0, bs)
  | located :: rest, bs =>
    if (located.layout.seqNumOf located.message).any (· ≤ last) then replay target last rest bs
    else
      let (lost, bs) := bs.applyIncrement located.message located.layout (.replay target)
      if lost.contains target then (none, bs)
      else
        let (n, bs) := replay target last rest bs
        (n.map (· + 1), bs)

/-- What a poll brings an attempt to. -/
inductive JoinStep where
  /-- A snapshot is still to come. -/
  | wait (a : Attempt)
  /-- The attempt cannot succeed any more. -/
  | giveUp
  | joined
  | failed (e : SyncError)

/-- Replays the increments of an attempt once the snapshot stands. -/
def finishJoin (target : Nat) (a : Attempt) (last : UInt64) : JoinStep × BookSet :=
  match replay target last a.buffered.reverse set.books with
  | (none, books) => (.giveUp, { set with books })
  | (some n, books) =>
    let set := { set with books }.count (·.countReplayed (.ofNat n))
    (if (books.list[target]?).any (·.isActive) then .joined else .giveUp, set)

/-- Tries a snapshot on an attempt. -/
def trySnapshot (target : Nat) (a : Attempt) (located : Located) : JoinStep × BookSet :=
  match located.layout.lastProcessedOf located.message with
  | none => (.wait a, set)
  | some last =>
    if !a.isReachedBy last then (.wait a, set)
    else
      match set.books.applySnapshot located.message located.layout target with
      | (.error _, books) => (.giveUp, { set with books })
      | (.ok false, books) => (.wait a, { set with books })
      | (.ok true, books) => { set with books }.finishJoin target a last

/-- Polls the increment feeds and then the snapshot feeds for an attempt. -/
def pollJoin (target : Nat) (a : Attempt) : JoinStep × BookSet :=
  match set.poll with
  | (.error e, set) => (.failed e, set)
  | (.ok taken, set) =>
    if set.watch.arbiter.isStalled then (.giveUp, set)
    else
      let set := taken.foldl applySteady set
      let a := taken.foldl Attempt.add a
      match pollSnapshots set.layouts set.network set.snapshots with
      | (.error e, snapshots) => (.failed (.feed e), { set with snapshots })
      | (.ok none, snapshots) => (.wait a, { set with snapshots })
      | (.ok (some located), snapshots) => { set with snapshots }.trySnapshot target a located

/-- Begins an attempt: the book is not kept up meanwhile. -/
def beginJoin (target : Nat) : Except SyncError Unit × BookSet :=
  { set with books := set.books.deactivate target }.openIncrements

/-- The polls that a join may take: as many as a counter holds, where none are set. -/
def joinLimit : Nat := (set.policy.maxJoinPolls.map UInt64.toNat).getD 0x10000000000000000

/-- Goes on with an attempt for so many more polls, and begins another whenever one is given up. -/
def joinWithin (target : Nat) : Nat → Attempt → BookSet → Except SyncError Unit × BookSet
  | 0, _, set =>
    let symbol := ((set.books.list[target]?).map (·.symbol)).getD ""
    (.error (.joinExhausted symbol set.joinLimit), set.closeSnapshots)
  | polls + 1, a, set =>
    match set.pollJoin target a with
    | (.wait a, set) => joinWithin target polls a set
    | (.failed e, set) => (.error e, set.closeSnapshots)
    | (.joined, set) =>
      let set := set.closeSnapshots.count (·.countJoin)
      (.ok (), { set with desynced := set.desynced.filter (· != target) })
    | (.giveUp, set) =>
      match (set.closeSnapshots.count (·.countJoinRetry)).resetArbiter.beginJoin target with
      | (.error e, set) => (.error e, set.closeSnapshots)
      | (.ok (), set) => joinWithin target polls {} set

/-- Brings the book at a position in step with the increment feeds. -/
def join (target : Nat) : Except SyncError Unit × BookSet :=
  match set.beginJoin target with
  | (.error e, set) => (.error e, set.closeSnapshots)
  | (.ok (), set) => joinWithin target set.joinLimit {} set

/-- The first book that is to be kept up and is not. -/
def firstMissing? : Option Nat :=
  set.books.list.findIdx? fun b => b.isSubscribed && !b.isActive

/-- The bytes that the increment feeds can still bring, those of a closed feed from the start. -/
def supply : Nat :=
  (set.increments.map fun f =>
    match f.session with
    | some s => s.source.weight + s.buffer.unread.length
    | none => ((set.network f.config.transport).map Source.weight).getD 0).foldr (· + ·) 0

/--
Joins every subscribed book that is not active, which may cost others their place. Every join takes
a message from the increment feeds, so there are no more joins than bytes to come.
-/
def rejoinWithin : Nat → BookSet → Except SyncError Unit × BookSet
  | joins, set =>
    match set.firstMissing? with
    | none => (.ok (), { set with desynced := [] })
    | some target =>
      match joins with
      | 0 => (.error (.joinExhausted (((set.books.list[target]?).map (·.symbol)).getD "") 0), set)
      | joins + 1 =>
        match set.join target with
        | (.error e, set) => (.error e, set)
        | (.ok (), set) => rejoinWithin joins set

def rejoin : Except SyncError Unit × BookSet := rejoinWithin (set.supply + 1) set

/-- Starts over: no book is active, and every subscribed one joins again. -/
def recover : Except SyncError Unit × BookSet :=
  let set := (set.count (·.countRecovery)).resetArbiter
  let list := set.books.list.map fun b => { b with isActive := false }
  { set with books := { set.books with list } }.rejoin

/-! ## Subscriptions -/

/-- Joins a book and keeps it up from now on. -/
def subscribe (securityId : UInt64) : Except SyncError Unit × BookSet :=
  match set.books.byId? securityId with
  | none => (.error (.unknownBook securityId), set)
  | some target =>
    match set.join target with
    | (.error e, set) => (.error e, set)
    | (.ok (), set) =>
      let books := set.books.modify target fun b => { b with isSubscribed := true }
      (.ok (), { set with books })

/-- Stops keeping a book up. -/
def unsubscribe (securityId : UInt64) : Except SyncError Unit × BookSet :=
  match set.books.byId? securityId with
  | none => (.error (.unknownBook securityId), set)
  | some target =>
    (.ok (), { set with
      books := set.books.modify target fun b =>
        { b with isSubscribed := false, isActive := false }
      desynced := set.desynced.filter (· != target) })

/-! ## Updates -/

/-- The subscribed books that are known to have missed rows. -/
def desyncedBooks : List Nat :=
  (set.books.list.zipIdx.filter fun (b, i) => b.isSubscribed && set.desynced.contains i).map (·.2)

/-- What is to be done once the increments of an update, so many of them, are applied. -/
def settle (applied : Nat) : Except SyncError Tick × BookSet :=
  if set.watch.arbiter.isStalled then
    if set.policy.autoRecover then
      let (result, set) := set.recover
      (result.map fun _ => .recovered, set)
    else (.ok .stalled, set)
  else if set.desyncedBooks ≠ [] then
    if set.policy.autoRecover then
      let (result, set) := set.rejoin
      (result.map fun _ => .recovered, set)
    else (.ok (.desynced set.desyncedBooks), set)
  else (.ok (if applied = 0 then .idle else .applied applied), set)

/-- Polls every increment feed once and applies what was taken. -/
def update : Except SyncError Tick × BookSet :=
  match { set with books := { set.books with touched := [] } }.poll with
  | (.error e, set) => (.error e, set)
  | (.ok taken, set) => (taken.foldl applySteady set).settle taken.length

end BookSet

end MarketFeed
