import MarketFeed.Book.Basic
import MarketFeed.Config.Address

/-!
# Configuration

The feeds, the books and how they are kept in step. A configuration is checked as a whole, and the
first fault found is the one reported.
-/

namespace MarketFeed

inductive FeedKind where
  | increment
  | snapshot
deriving DecidableEq, Repr, Inhabited

def FeedKind.label : FeedKind → String
  | increment => "Increment"
  | snapshot => "Snapshot"

inductive Transport where
  | multicast (group : Ipv4) (port : UInt16) (interface : Ipv4) (source : Option Ipv4)
  | tcp (endpoint : Endpoint)
  | file (path : String)
deriving DecidableEq, Repr, Inhabited

/-- Whether every read brings one datagram. -/
def Transport.isMulticast : Transport → Bool
  | multicast _ _ _ _ => true
  | tcp _ | file _ => false

structure FeedConfig where
  name : String
  kind : FeedKind
  transport : Transport
  blocking : Bool := false
  /-- The bytes in front of every datagram that are not part of the stream. -/
  preambleBytes : Nat := 0
  resetOnReset : Bool := true
deriving DecidableEq, Repr, Inhabited

/-- The depth of a book that declares none. -/
def defaultDepth : Nat := 20

structure BookConfig where
  symbol : String
  securityId : UInt64
  depth : Nat := defaultDepth
  tick : Decimal
  tradingSession : Option String := none
deriving DecidableEq, Repr, Inhabited

structure SyncConfig where
  /-- Whether books are joined again as soon as they are known to have missed something. -/
  autoRecover : Bool := true
  /-- The polls after which a join is given up, if there is a limit. -/
  maxJoinPolls : Option UInt64 := none
deriving DecidableEq, Repr, Inhabited

structure Config where
  feeds : List FeedConfig
  books : List BookConfig
  sync : SyncConfig := {}
deriving DecidableEq, Repr, Inhabited

/-- What is wrong with a configuration. -/
inductive ConfigFault where
  | noFeed (kind : FeedKind)
  | tooManyFeeds (count : Nat) (kind : FeedKind) (max : Nat)
  | duplicateFeed (name : String)
  | uselessPreamble (feed : String)
  | noBooks
  | tooManyBooks (count max : Nat)
  | duplicateBook (symbol : String) (securityId : UInt64)
  | badDepth (symbol : String) (max : Nat)
  | badTick (symbol : String) (tick : Decimal)
deriving DecidableEq, Repr, Inhabited

def ConfigFault.message : ConfigFault → String
  | noFeed kind => s!"at least one {kind.label} feed is required"
  | tooManyFeeds count kind max => s!"{count} {kind.label} feeds exceed the limit of {max}"
  | duplicateFeed name => s!"duplicate feed name '{name}'"
  | uselessPreamble feed => s!"feed '{feed}': preamble_bytes only applies to multicast transports"
  | noBooks => "no books configured"
  | tooManyBooks count max => s!"{count} books exceed the limit of {max}"
  | duplicateBook symbol securityId => s!"duplicate book '{symbol}' ({securityId})"
  | badDepth symbol max => s!"book '{symbol}': depth must be within 1..={max}"
  | badTick symbol tick => s!"book '{symbol}': invalid tick {tick.render}"

inductive ConfigError where
  /-- The configuration could not be read. -/
  | unreadable
  /-- What was read is no configuration. -/
  | malformed
  | invalid (fault : ConfigFault)
deriving DecidableEq, Repr, Inhabited

def ConfigError.message : ConfigError → String
  | unreadable => "failed to read the configuration"
  | malformed => "failed to parse the configuration"
  | invalid fault => s!"config validation failed: {fault.message}"

namespace Config

/-- The most feeds of each kind. -/
def maxFeeds : Nat := 4

/-- The most books. -/
def maxBooks : Nat := 64

variable (c : Config)

def feedsOf (kind : FeedKind) : List FeedConfig := c.feeds.filter (·.kind == kind)

def checkFeedCount (kind : FeedKind) : Except ConfigFault Unit :=
  let count := (c.feedsOf kind).length
  if count = 0 then .error (.noFeed kind)
  else if maxFeeds < count then .error (.tooManyFeeds count kind maxFeeds)
  else .ok ()

/-- Checks the feeds in turn, `seen` being the names of those before them. -/
def checkFeeds : List String → List FeedConfig → Except ConfigFault Unit
  | _, [] => .ok ()
  | seen, f :: feeds =>
    if seen.contains f.name then .error (.duplicateFeed f.name)
    else if 0 < f.preambleBytes && !f.transport.isMulticast then .error (.uselessPreamble f.name)
    else checkFeeds (f.name :: seen) feeds

def checkBook (b : BookConfig) : Except ConfigFault Unit :=
  if b.depth = 0 ∨ Book.maxDepth < b.depth then .error (.badDepth b.symbol Book.maxDepth)
  else if b.tick.mantissa ≤ 0 || !b.tick.hasValidExponent then .error (.badTick b.symbol b.tick)
  else .ok ()

/-- Checks the books in turn, `seen` being those before them. -/
def checkBooks : List BookConfig → List BookConfig → Except ConfigFault Unit
  | _, [] => .ok ()
  | seen, b :: books =>
    if seen.any fun s => s.securityId == b.securityId || s.symbol == b.symbol then
      .error (.duplicateBook b.symbol b.securityId)
    else do
      checkBook b
      checkBooks (b :: seen) books

def findFault : Except ConfigFault Unit := do
  c.checkFeedCount .increment
  c.checkFeedCount .snapshot
  checkFeeds [] c.feeds
  if c.books.isEmpty then throw .noBooks
  if maxBooks < c.books.length then throw (.tooManyBooks c.books.length maxBooks)
  checkBooks [] c.books

def validate : Except ConfigError Unit :=
  match c.findFault with
  | .ok () => .ok ()
  | .error fault => .error (.invalid fault)

/-! ## Loading -/

/-- Reads the text of a configuration, whatever way it is written in, and checks it. -/
def ofText (read? : String → Option Config) (text : String) : Except ConfigError Config :=
  match read? text with
  | none => .error .malformed
  | some c => c.validate.map fun _ => c

/-- Reads what a file holds; there may be no such file. -/
def ofFile (read? : String → Option Config) (contents : Option String) :
    Except ConfigError Config :=
  match contents with
  | none => .error .unreadable
  | some text => ofText read? text

end Config

end MarketFeed
