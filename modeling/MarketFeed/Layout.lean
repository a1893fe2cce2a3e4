import MarketFeed.Template
import MarketFeed.Book.Basic

/-!
# Layouts

Where the fields that books need stand in the messages of a template. A layout is resolved once; a
template that is declared to carry incremental or snapshot refreshes must have what those need.
-/

namespace MarketFeed

/-- The messages that a session tells apart. -/
inductive MessageType where
  | heartbeat
  | sequenceReset
  | sessionStatus
  | snapshotRefresh
  | incrementalRefresh
deriving DecidableEq, Repr, Inhabited

namespace MessageType

def code : MessageType → String
  | heartbeat => "0"
  | sequenceReset => "4"
  | sessionStatus => "h"
  | snapshotRefresh => "W"
  | incrementalRefresh => "X"

def label : MessageType → String
  | heartbeat => "Heartbeat"
  | sequenceReset => "SequenceReset"
  | sessionStatus => "SessionStatus"
  | snapshotRefresh => "SnapshotRefresh"
  | incrementalRefresh => "IncrementalRefresh"

def all : List MessageType :=
  [heartbeat, sequenceReset, sessionStatus, snapshotRefresh, incrementalRefresh]

def ofText? (text : List UInt8) : Option MessageType :=
  all.find? fun type => utf8Bytes type.code == text

end MessageType

inductive LayoutError where
  | missingField (template : UInt32) (field : String)
  | wrongType (template : UInt32) (field : String) (kind : Kind)
deriving DecidableEq, Repr, Inhabited

def LayoutError.message : LayoutError → String
  | missingField template field => s!"template {template}: missing field {field}"
  | wrongType template field kind => s!"template {template}: field {field} cannot be {kind.label}"

/-- The kinds of field that can hold something the books read. -/
inductive Shape where
  | number
  | text
  | price
  | size
  | group
deriving DecidableEq, Repr

def Shape.admits : Shape → Kind → Bool
  | number, kind => kind == .uint
  | text, kind => kind == .ascii || kind == .unicode
  | price, kind => kind == .decimal
  | size, kind => kind == .int || kind == .uint || kind == .decimal
  | group, kind => kind == .sequence

namespace Layout

/-- The position of a field of the right kind, if there is a field of that name. -/
def locate (template : UInt32) (specs : List FieldSpec) (name : String) (shape : Shape) :
    Except LayoutError (Option Nat) :=
  match specs.findIdx? (·.name == name) with
  | none => .ok none
  | some i =>
    match specs[i]? with
    | none => .ok none
    | some s =>
      if shape.admits s.decl.kind then .ok (some i)
      else .error (.wrongType template name s.decl.kind)

def require (template : UInt32) (field : String) (position : Option Nat) :
    Except LayoutError Unit :=
  if position.isSome then .ok () else .error (.missingField template field)

end Layout

/-- Positions in a row of market-data entries. -/
structure RowLayout where
  entryType : Option Nat := none
  price : Option Nat := none
  size : Option Nat := none
  action : Option Nat := none
  rptSeq : Option Nat := none
  securityId : Option Nat := none
  symbol : Option Nat := none
  tradingSession : Option Nat := none
  priceLevel : Option Nat := none
deriving DecidableEq, Repr, Inhabited

namespace RowLayout

def resolve (template : UInt32) (row : List FieldSpec) : Except LayoutError RowLayout := do
  let locate := Layout.locate template row
  return {
    entryType := ← locate "MDEntryType" .text
    price := ← locate "MDEntryPx" .price
    size := ← locate "MDEntrySize" .size
    action := ← locate "MDUpdateAction" .number
    rptSeq := ← locate "RptSeq" .number
    securityId := ← locate "SecurityID" .number
    symbol := ← locate "Symbol" .text
    tradingSession := ← locate "TradingSessionID" .text
    priceLevel := ← locate "MDPriceLevel" .number }

/-- The row's entry at a resolved position. -/
def entryAt (row : Row) (position : Option Nat) : Option Entry := position.bind (row[·]?)

def securityIdOf (l : RowLayout) (row : Row) : Option UInt64 :=
  entryAt row l.securityId >>= Entry.asUInt

def symbolOf (l : RowLayout) (row : Row) : Option (List UInt8) :=
  entryAt row l.symbol >>= Entry.asBytes

def tradingSessionOf (l : RowLayout) (row : Row) : Option (List UInt8) :=
  entryAt row l.tradingSession >>= Entry.asBytes

def rptSeqOf (l : RowLayout) (row : Row) : Option UInt64 := entryAt row l.rptSeq >>= Entry.asUInt

/-- Whether the rows declare a trading session. -/
def hasTradingSession (l : RowLayout) : Bool := l.tradingSession.isSome

/-- A value as a size: an integer, or a decimal without a fraction. -/
def sizeOf? : Value → Option Int64
  | .int v => some v
  | .uint v => toInt64? v.toNat
  | .decimal d => d.rescale 0
  | .bytes _ => none

/-- The value that a row must have in a field. -/
def expect {α : Type} (name : String) : Option α → Except BookError α
  | some a => .ok a
  | none => .error (.missingField name)

/-- The meaning that the value of a field must have. -/
def interpret {α : Type} (name : String) : Option α → Except BookError α
  | some a => .ok a
  | none => .error (.invalidField name)

def actionOf (l : RowLayout) (row : Row) (snapshot : Bool) : Except BookError UpdateAction :=
  if snapshot then .ok .new
  else do
    let code ← expect "MDUpdateAction" (entryAt row l.action >>= Entry.asUInt)
    interpret "MDUpdateAction" (UpdateAction.ofUInt? code)

/-- The size of an entry, which only a deletion can do without. -/
def entrySizeOf (l : RowLayout) (row : Row) (action : UpdateAction) : Except BookError Int64 :=
  match entryAt row l.size >>= Entry.value? with
  | some v => interpret "MDEntrySize" (sizeOf? v)
  | none => if action = .delete then .ok 0 else .error (.missingField "MDEntrySize")

/-- The level of an entry, counted from one on the wire. -/
def levelOf (l : RowLayout) (row : Row) : Except BookError (Option Nat) :=
  match entryAt row l.priceLevel >>= Entry.asUInt with
  | none => .ok none
  | some level =>
    if level = 0 then .error (.invalidField "MDPriceLevel") else .ok (some (level.toNat - 1))

/-- The market-data entry of a row. Rows of a snapshot have no action: each adds a level. -/
def bookEntry (l : RowLayout) (row : Row) (snapshot : Bool) : Except BookError BookEntry := do
  let code ← expect "MDEntryType" (entryAt row l.entryType >>= Entry.asBytes)
  let kind ← interpret "MDEntryType" (EntryKind.ofText? code)
  if kind = .emptyBook then
    return { kind, action := .new, price := none, size := 0, level := none }
  let action ← l.actionOf row snapshot
  let size ← l.entrySizeOf row action
  let level ← l.levelOf row
  return { kind, action, price := entryAt row l.price >>= Entry.asDecimal, size, level }

end RowLayout

/-- Positions in the messages of a template. -/
structure MessageLayout where
  templateId : UInt32
  /-- The message type, when the template declares it as a constant. -/
  fixedType : Option MessageType
  messageType : Option Nat
  seqNum : Option Nat
  lastProcessed : Option Nat
  rptSeq : Option Nat
  securityId : Option Nat
  symbol : Option Nat
  tradingSession : Option Nat
  entries : Option Nat
  row : RowLayout
deriving DecidableEq, Repr, Inhabited

namespace MessageLayout

/-- The message type that a field always has. -/
def constantType? (s : FieldSpec) : Option MessageType :=
  if s.decl.op = .constant then s.decl.init >>= Value.asBytes >>= MessageType.ofText? else none

/-- The group of entries goes by either of two names. -/
def locateEntries (t : Template) : Except LayoutError (Option Nat) := do
  match ← Layout.locate t.id t.fields "MDEntries" .group with
  | some i => return some i
  | none => Layout.locate t.id t.fields "GroupMDEntries" .group

def resolveRow (t : Template) (entries : Option Nat) : Except LayoutError RowLayout :=
  match entries.bind (t.fields[·]?) with
  | some (.group _ _ row) => RowLayout.resolve t.id row
  | _ => .ok {}

/-- What an incremental refresh must have. -/
def checkIncrement (l : MessageLayout) : Except LayoutError Unit := do
  let require := Layout.require l.templateId
  require "MsgSeqNum" l.seqNum
  require "MDEntries" l.entries
  require "MDEntryType" l.row.entryType
  require "MDUpdateAction" l.row.action
  require "MDEntryPx" l.row.price
  require "MDEntrySize" l.row.size
  require "RptSeq" l.row.rptSeq
  require "SecurityID" (l.row.securityId <|> l.row.symbol)

/-- What a snapshot must have. -/
def checkSnapshot (l : MessageLayout) : Except LayoutError Unit := do
  let require := Layout.require l.templateId
  require "MsgSeqNum" l.seqNum
  require "LastMsgSeqNumProcessed" l.lastProcessed
  require "RptSeq" l.rptSeq
  require "SecurityID" (l.securityId <|> l.symbol)
  require "MDEntries" l.entries
  require "MDEntryType" l.row.entryType
  require "MDEntryPx" l.row.price
  require "MDEntrySize" l.row.size

def resolve (t : Template) : Except LayoutError MessageLayout := do
  let locate := Layout.locate t.id t.fields
  let messageType ← locate "MessageType" .text
  let entries ← locateEntries t
  let row ← resolveRow t entries
  let layout : MessageLayout := {
    templateId := t.id
    fixedType := messageType.bind (t.fields[·]?) >>= constantType?
    messageType
    seqNum := ← locate "MsgSeqNum" .number
    lastProcessed := ← locate "LastMsgSeqNumProcessed" .number
    rptSeq := ← locate "RptSeq" .number
    securityId := ← locate "SecurityID" .number
    symbol := ← locate "Symbol" .text
    tradingSession := ← locate "TradingSessionID" .text
    entries
    row }
  match layout.fixedType with
  | some .incrementalRefresh => layout.checkIncrement
  | some .snapshotRefresh => layout.checkSnapshot
  | _ => pure ()
  return layout

/-- The message's field at a resolved position. -/
def entryAt (m : Message) (position : Option Nat) : Option Entry :=
  (position.bind (m.items[·]?)).map (·.head.current)

def messageTypeOf (l : MessageLayout) (m : Message) : Option MessageType :=
  l.fixedType <|> (entryAt m l.messageType >>= Entry.asBytes >>= MessageType.ofText?)

def seqNumOf (l : MessageLayout) (m : Message) : Option UInt64 :=
  entryAt m l.seqNum >>= Entry.asUInt

def lastProcessedOf (l : MessageLayout) (m : Message) : Option UInt64 :=
  entryAt m l.lastProcessed >>= Entry.asUInt

def rptSeqOf (l : MessageLayout) (m : Message) : Option UInt64 :=
  entryAt m l.rptSeq >>= Entry.asUInt

def securityIdOf (l : MessageLayout) (m : Message) : Option UInt64 :=
  entryAt m l.securityId >>= Entry.asUInt

def symbolOf (l : MessageLayout) (m : Message) : Option (List UInt8) :=
  entryAt m l.symbol >>= Entry.asBytes

def tradingSessionOf (l : MessageLayout) (m : Message) : Option (List UInt8) :=
  entryAt m l.tradingSession >>= Entry.asBytes

/-- The group of entries, unless it is absent. -/
def entriesOf (l : MessageLayout) (m : Message) : Option Group :=
  (l.entries.bind (m.items[·]?) >>= Item.group?).filter (·.length.current.isAssigned)

end MessageLayout

/-- The layouts of a set of templates. -/
abbrev Layouts := List MessageLayout

namespace Layouts

/-- The layout of every template that does not end the history. -/
def ofTemplates (set : TemplateSet) : Except LayoutError Layouts :=
  (set.templates.filter (!·.resets)).mapM MessageLayout.resolve

def find? (ls : Layouts) (templateId : UInt32) : Option MessageLayout :=
  List.find? (·.templateId == templateId) ls

end Layouts

end MarketFeed
