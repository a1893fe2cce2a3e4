import MarketFeed.Decimal
import MarketFeed.Text

/-!
# Order books

A book holds price levels for each side, the best first. A price is stored as its mantissa at the
exponent of the book's tick, so a price that is no multiple of the tick has no level.
-/

namespace MarketFeed

inductive Side where
  | bid
  | ask
deriving DecidableEq, Repr, Inhabited

namespace Side

def label : Side → String
  | bid => "Bid"
  | ask => "Ask"

/-- Whether the first price stands in front of the second: bids fall, asks rise. -/
def isBetter : Side → Int64 → Int64 → Bool
  | bid, a, b => b < a
  | ask, a, b => a < b

end Side

/-- What a market-data entry is about. -/
inductive EntryKind where
  | bid
  | offer
  | emptyBook
deriving DecidableEq, Repr, Inhabited

namespace EntryKind

def ofText? (text : List UInt8) : Option EntryKind :=
  if text = utf8Bytes "0" then some bid
  else if text = utf8Bytes "1" then some offer
  else if text = utf8Bytes "J" then some emptyBook
  else none

def label : EntryKind → String
  | bid => "Bid"
  | offer => "Offer"
  | emptyBook => "EmptyBook"

def side? : EntryKind → Option Side
  | bid => some .bid
  | offer => some .ask
  | emptyBook => none

end EntryKind

inductive UpdateAction where
  | new
  | change
  | delete
deriving DecidableEq, Repr, Inhabited

namespace UpdateAction

def ofUInt? (v : UInt64) : Option UpdateAction :=
  if v = 0 then some new
  else if v = 1 then some change
  else if v = 2 then some delete
  else none

def label : UpdateAction → String
  | new => "New"
  | change => "Change"
  | delete => "Delete"

end UpdateAction

structure PriceLevel where
  price : Int64
  size : Int64
deriving DecidableEq, Repr, Inhabited

/-- One market-data entry of a message. -/
structure BookEntry where
  kind : EntryKind
  action : UpdateAction
  price : Option Decimal
  size : Int64
  /-- The position of the level, counted from zero, where a feed names it. -/
  level : Option Nat
deriving DecidableEq, Repr, Inhabited

inductive BookError where
  | offTick (price : Decimal)
  | levelOutOfRange (level depth : Nat)
  | priceMismatch (side : Side) (level : Nat) (found expected : Int64)
  | priceNotFound (side : Side) (price : Int64)
  | missingField (name : String)
  | invalidField (name : String)
deriving DecidableEq, Repr, Inhabited

def BookError.message : BookError → String
  | offTick price => s!"price {price.render} is not a multiple of the tick"
  | levelOutOfRange level depth => s!"level {level} out of range for depth {depth}"
  | priceMismatch side level found expected =>
    s!"{side.label} level {level} holds price {found}, expected {expected}"
  | priceNotFound side price => s!"no {side.label} level at price {price}"
  | missingField name => s!"missing field {name}"
  | invalidField name => s!"invalid value in field {name}"

/-- Where a price is among the levels of a side, or where it would be inserted. -/
inductive Location where
  | found (i : Nat)
  | missing (i : Nat)
deriving DecidableEq, Repr, Inhabited

namespace Side

/-- Halves a window of levels until one is left, keeping to the right of the levels in front. -/
def narrow (side : Side) (levels : List PriceLevel) (price : Int64) (start size : Nat) : Nat :=
  if size ≤ 1 then start
  else
    let middle := start + size / 2
    let isPast := (levels[middle]?).any fun level => side.isBetter price level.price
    narrow side levels price (if isPast then start else middle) (size - size / 2)
termination_by size

/-- Binary search for a price. -/
def locate (side : Side) (levels : List PriceLevel) (price : Int64) : Location :=
  let i := side.narrow levels price 0 levels.length
  match levels[i]? with
  | none => .missing i
  | some level =>
    if level.price = price then .found i
    else if side.isBetter level.price price then .missing (i + 1)
    else .missing i

end Side

namespace Book

/-- The deepest book that is kept. -/
def maxDepth : Nat := 50

end Book

structure Book where
  symbol : String
  securityId : UInt64
  tick : Decimal
  /-- The trading session whose entries alone are taken, if there is one. -/
  session : Option String := none
  depth : Nat
  bids : List PriceLevel := []
  asks : List PriceLevel := []
  rptSeq : UInt64 := 0
  isSubscribed : Bool := false
  isActive : Bool := false
  /-- Whether the last entry said that the book is empty. -/
  isEmpty : Bool := false
deriving DecidableEq, Repr, Inhabited

namespace Book

/-- A book without levels, at least one and at most `maxDepth` of them deep. -/
def create (symbol : String) (securityId : UInt64) (tick : Decimal) (depth : Nat)
    (session : Option String) : Book where
  symbol
  securityId
  tick
  session
  depth := min (max depth 1) maxDepth

/-- Whether entries of this trading session belong to the book. -/
def acceptsSession (b : Book) (session : List UInt8) : Bool :=
  match b.session with
  | some own => utf8Bytes own == session
  | none => true

def levels (b : Book) : Side → List PriceLevel
  | .bid => b.bids
  | .ask => b.asks

def withLevels (b : Book) (side : Side) (levels : List PriceLevel) : Book :=
  match side with
  | .bid => { b with bids := levels }
  | .ask => { b with asks := levels }

/--
The price as a mantissa at the tick's exponent. A zero tick admits no price, and neither does a
division by the tick that does not fit.
-/
def priceInTicks (b : Book) (price : Decimal) : Except BookError Int64 :=
  match price.rescale b.tick.exponent with
  | none => .error (.offTick price)
  | some mantissa =>
    if b.tick.mantissa = 0 ∨ (mantissa = Int64.minValue ∧ b.tick.mantissa = -1) then
      .error (.offTick price)
    else if Int.tmod mantissa.toInt b.tick.mantissa.toInt = 0 then .ok mantissa
    else .error (.offTick price)

def toPrice (b : Book) (ticks : Int64) : Decimal := ⟨ticks, b.tick.exponent⟩

/-- Inserts a level at a position, and drops what falls out of the depth. -/
def newLevel (b : Book) (side : Side) (i : Nat) (level : PriceLevel) : Except BookError Book :=
  let levels := b.levels side
  if b.depth ≤ i then .ok b
  else if levels.length < i then .error (.levelOutOfRange i levels.length)
  else .ok (b.withLevels side ((levels.insertIdx i level).take b.depth))

/-- The level at a position; the price, where it is known, must be the level's. -/
def levelAt (b : Book) (side : Side) (i : Nat) (price : Option Int64) :
    Except BookError PriceLevel :=
  match (b.levels side)[i]? with
  | none => .error (.levelOutOfRange i (b.levels side).length)
  | some level =>
    match price with
    | none => .ok level
    | some expected =>
      if level.price = expected then .ok level
      else .error (.priceMismatch side i level.price expected)

/-- Gives the level at a position another size. -/
def resizeAt (b : Book) (side : Side) (i : Nat) (size : Int64) : Book :=
  b.withLevels side ((b.levels side).modify i fun level => { level with size })

def changeLevel (b : Book) (side : Side) (i : Nat) (level : PriceLevel) :
    Except BookError Book :=
  if b.depth ≤ i then .ok b
  else do
    let _ ← b.levelAt side i (some level.price)
    return b.resizeAt side i level.size

def deleteLevel (b : Book) (side : Side) (i : Nat) (price : Option Int64) :
    Except BookError Book :=
  if b.depth ≤ i then .ok b
  else do
    let _ ← b.levelAt side i price
    return b.withLevels side ((b.levels side).eraseIdx i)

/-- Creates or overwrites the level at a price. -/
def setLevel (b : Book) (side : Side) (level : PriceLevel) : Except BookError Book :=
  match side.locate (b.levels side) level.price with
  | .found i => .ok (b.resizeAt side i level.size)
  | .missing i => b.newLevel side i level

/-- Removes the level at a price; a price beyond the depth is none that the book keeps. -/
def deletePrice (b : Book) (side : Side) (price : Int64) : Except BookError Book :=
  match side.locate (b.levels side) price with
  | .found i => .ok (b.withLevels side ((b.levels side).eraseIdx i))
  | .missing i => if b.depth ≤ i then .ok b else .error (.priceNotFound side price)

def clear (b : Book) : Book := { b with bids := [], asks := [], isEmpty := false }

/-- The price of an entry as a number of ticks, if it has one. -/
def entryTicks (b : Book) (e : BookEntry) : Except BookError (Option Int64) :=
  match e.price with
  | none => .ok none
  | some price => (b.priceInTicks price).map some

/-- The level that an entry is about. -/
def entryLevel (e : BookEntry) : Option Int64 → Except BookError PriceLevel
  | some price => .ok ⟨price, e.size⟩
  | none => .error (.missingField "MDEntryPx")

/-- Changes one side by an entry. -/
def applyTo (b : Book) (side : Side) (e : BookEntry) : Except BookError Book := do
  let price ← b.entryTicks e
  match e.action, e.level with
  | .new, some i => b.newLevel side i (← entryLevel e price)
  | .change, some i => b.changeLevel side i (← entryLevel e price)
  | .delete, some i => b.deleteLevel side i price
  | .new, none | .change, none => b.setLevel side (← entryLevel e price)
  | .delete, none => b.deletePrice side (← entryLevel e price).price

/--
Applies an entry, and gives the book back in either case: an entry of a side that fails still shows
that the book is no longer empty.
-/
def apply (b : Book) (e : BookEntry) : Except BookError Unit × Book :=
  match e.kind.side? with
  | none => (.ok (), { b.clear with isEmpty := true })
  | some side =>
    let b := { b with isEmpty := false }
    match b.applyTo side e with
    | .ok b => (.ok (), b)
    | .error e => (.error e, b)

/-! ## Views -/

/-- The price and size of a level. -/
def quote (b : Book) (level : PriceLevel) : Decimal × Int64 := (b.toPrice level.price, level.size)

def best? (b : Book) (side : Side) : Option (Decimal × Int64) := (b.levels side).head?.map b.quote

/-- The best `n` levels of a side. -/
def top (b : Book) (side : Side) (n : Nat) : List (Decimal × Int64) :=
  ((b.levels side).take n).map b.quote

/-- The best ask less the best bid, unless the book is crossed. -/
def spread? (b : Book) : Option Decimal :=
  match b.bids.head?, b.asks.head? with
  | some bid, some ask =>
    if bid.price < ask.price then some (b.toPrice (ask.price - bid.price)) else none
  | _, _ => none

end Book

end MarketFeed
