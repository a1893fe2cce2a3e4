import MarketFeed.Config.Basic
import MarketFeed.Layout

/-!
# Books and what changes them

Incremental refreshes advance the books whose rows they carry, row by row: a row is taken only if
its sequence number is the next one of its book, and a book that misses a row is no longer active.
A snapshot replaces all levels of one book that is not active.

Sequence numbers are words that wrap around. Where the number after the largest word is asked for,
arithmetic that is checked stops the program instead, and the books remember that it would have.
-/

namespace MarketFeed

structure Books where
  list : List Book
  /-- The positions of the books changed since this was last cleared. -/
  touched : List Nat := []
  /-- A row was compared with the number after the largest word: checked arithmetic has stopped. -/
  overflowed : Bool := false
deriving DecidableEq, Repr, Inhabited

namespace Books

def ofConfigs (configs : List BookConfig) : Books where
  list := configs.map fun c => .create c.symbol c.securityId c.tick c.depth c.tradingSession

def byId? (bs : Books) (id : UInt64) : Option Nat := bs.list.findIdx? (·.securityId == id)

def bySymbol? (bs : Books) (symbol : List UInt8) : Option Nat :=
  bs.list.findIdx? fun b => utf8Bytes b.symbol == symbol

/-- The position of the book that is meant; an id counts for more than a symbol. -/
def find? (bs : Books) (id : Option UInt64) (symbol : Option (List UInt8)) : Option Nat :=
  match id with
  | some id => bs.byId? id
  | none => symbol.bind bs.bySymbol?

def modify (bs : Books) (i : Nat) (f : Book → Book) : Books :=
  { bs with list := bs.list.modify i f }

def deactivate (bs : Books) (i : Nat) : Books := bs.modify i fun b => { b with isActive := false }

def touch (bs : Books) (i : Nat) : Books := { bs with touched := bs.touched.insert i }

/-! ## Incremental refreshes -/

/-- Which books an incremental refresh is for. -/
inductive Mode where
  /-- All active books; what their snapshots covered already is passed over. -/
  | steady
  /-- One book that is being joined, which misses nothing. -/
  | replay (only : Nat)
deriving DecidableEq, Repr, Inhabited

def Mode.isFor : Mode → Nat → Bool
  | steady, _ => true
  | replay only, i => only == i

/-- What becomes of a row: it is not for the book, it breaks the book's sequence, or it is next. -/
inductive RowVerdict where
  | skip
  | lost
  | next (rptSeq : UInt64)
deriving DecidableEq, Repr, Inhabited

/-- Judges a row that names the book, by the number after the book's, which wraps around. -/
def judge (b : Book) (l : RowLayout) (mode : Mode) (row : Row) : RowVerdict :=
  if !b.isActive || (l.tradingSessionOf row).any (!b.acceptsSession ·) then .skip
  else
    match l.rptSeqOf row with
    | none => .lost
    | some rptSeq =>
      if mode = .steady ∧ rptSeq ≤ b.rptSeq then .skip
      else if rptSeq = b.rptSeq + 1 then .next rptSeq
      else .lost

/-- The books once a row is compared with the number after that of the book it names. -/
def compare (bs : Books) (b : Book) (l : RowLayout) (row : Row) : Books :=
  let overflows := (l.rptSeqOf row).isSome && b.rptSeq == 0xFFFFFFFFFFFFFFFF
  { bs with overflowed := bs.overflowed || overflows }

/-- Applies a row to the book it names: `some` position if that book is lost. -/
def applyRow (l : RowLayout) (mode : Mode) (bs : Books) (row : Row) : Option Nat × Books :=
  match bs.find? (l.securityIdOf row) (l.symbolOf row) with
  | none => (none, bs)
  | some i =>
    match if mode.isFor i then bs.list[i]? else none with
    | none => (none, bs)
    | some b =>
      match judge b l mode row with
      | .skip => (none, bs)
      | .lost => (some i, (bs.compare b l row).deactivate i)
      | .next rptSeq =>
        let bs := bs.compare b l row
        let b := { b with rptSeq }
        let (result, b) := match l.bookEntry row false with
          | .ok entry => b.apply entry
          | .error e => (.error e, b)
        let bs := (bs.modify i fun _ => b).touch i
        match result with
        | .ok () => (none, bs)
        | .error _ => (some i, bs.deactivate i)

/-- Applies row after row, and collects the books that are lost. -/
def applyRows (l : RowLayout) (mode : Mode) : List Row → Books → List Nat × Books
  | [], bs => ([], bs)
  | row :: rows, bs =>
    match applyRow l mode bs row with
    | (none, bs) => applyRows l mode rows bs
    | (some i, bs) =>
      let (lost, bs) := applyRows l mode rows bs
      (lost.insert i, bs)

/-- Applies an incremental refresh. -/
def applyIncrement (bs : Books) (m : Message) (l : MessageLayout) (mode : Mode) :
    List Nat × Books :=
  match l.entriesOf m with
  | none => ([], bs)
  | some g => applyRows l.row mode g.rows bs

/-! ## Snapshots -/

/-- Adds the rows of a snapshot to a book, up to the one that says it is empty. -/
def addRows (l : RowLayout) : List Row → Book → Except BookError Book
  | [], b => .ok b
  | row :: rows, b => do
    let entry ← l.bookEntry row true
    match b.apply entry with
    | (.error e, _) => throw e
    | (.ok (), b) => if b.isEmpty then return b else addRows l rows b

/-- Whether the trading session of a snapshot is the book's, told by the first row if it has one. -/
def acceptsSnapshot (b : Book) (m : Message) (l : MessageLayout) (g : Group) : Bool :=
  ((g.rows.head?.bind l.row.tradingSessionOf) <|> l.tradingSessionOf m).all b.acceptsSession

/--
Applies a snapshot to the book at a position, and says whether it was one for that book. A snapshot
that fails leaves the book empty.
-/
def applySnapshot (bs : Books) (m : Message) (l : MessageLayout) (target : Nat) :
    Except BookError Bool × Books :=
  if bs.find? (l.securityIdOf m) (l.symbolOf m) ≠ some target then (.ok false, bs)
  else
    match bs.list[target]? with
    | none => (.ok false, bs)
    | some b =>
      if b.isActive then (.ok false, bs)
      else
        match l.entriesOf m with
        | none => (.error (.missingField "MDEntries"), bs)
        | some g =>
          if !acceptsSnapshot b m l g then (.ok false, bs)
          else
            match l.rptSeqOf m with
            | none => (.error (.missingField "RptSeq"), bs)
            | some rptSeq =>
              let b := { b.clear with rptSeq }
              match addRows l.row g.rows b with
              | .error e => (.error e, bs.modify target fun _ => b)
              | .ok b =>
                (.ok true, (bs.modify target fun _ => { b with isActive := true }).touch target)

end Books

end MarketFeed
