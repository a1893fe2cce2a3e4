import MarketFeed.Operator
import MarketFeed.PresenceMap
import MarketFeed.Text

/-!
# Fields

A field is a declaration, which never changes, and two entries: the current one, which a decode
leaves or an encode sends, and the previous one, which the operators consult from one message to
the next.
-/

namespace MarketFeed

structure Decl where
  name : String
  id : UInt32
  kind : Kind
  op : Operator := .none
  presence : Presence := .mandatory
  /-- The value before the first assignment, and the value of a constant. -/
  init : Option Value := none
deriving DecidableEq, Repr, Inhabited

namespace Decl

def isOptional (d : Decl) : Bool := d.presence == .optional

def isMandatory (d : Decl) : Bool := d.presence == .mandatory

/-- Whether a bit of the presence map is set aside for the field. -/
def requiresBit (d : Decl) : Bool :=
  match d.op with
  | .copy | .increment => true
  | .constant => d.isOptional
  | .none | .delta => false

def initial (d : Decl) : Value := d.init.getD (.zero d.kind)

end Decl

inductive State where
  | undefined
  | assigned
  | empty
deriving DecidableEq, Repr, Inhabited

/-- A value with its state. The value is kept while the state says that it does not count. -/
structure Entry where
  state : State
  value : Value
deriving DecidableEq, Repr, Inhabited

namespace Entry

def assigned (v : Value) : Entry := ⟨.assigned, v⟩

def undefined (v : Value) : Entry := ⟨.undefined, v⟩

/-- The entry without its value, as a NULL leaves it. -/
def emptied (e : Entry) : Entry := { e with state := .empty }

def isAssigned (e : Entry) : Bool := e.state == .assigned

def isEmpty (e : Entry) : Bool := e.state == .empty

def value? (e : Entry) : Option Value := if e.isAssigned then some e.value else none

def asInt (e : Entry) : Option Int64 := e.value? >>= Value.asInt

def asUInt (e : Entry) : Option UInt64 := e.value? >>= Value.asUInt

def asDecimal (e : Entry) : Option Decimal := e.value? >>= Value.asDecimal

def asBytes (e : Entry) : Option (List UInt8) := e.value? >>= Value.asBytes

/-- The bytes as text, if they are well-formed UTF-8. -/
def asText (e : Entry) : Option String := e.asBytes >>= utf8?

end Entry

structure Field where
  decl : Decl
  /-- The field's bit of the presence map, if it has one. -/
  bit : Option Nat := none
  current : Entry
  previous : Entry
deriving DecidableEq, Repr, Inhabited

namespace Field

/-- A field that no message has touched. -/
def fresh (decl : Decl) (bit : Option Nat) : Field where
  decl
  bit
  current := .undefined decl.initial
  previous := .undefined decl.initial

/-- The field as it was before the first message. -/
def reset (f : Field) : Field := fresh f.decl f.bit

/-- The field with another current entry. -/
def put (f : Field) (e : Entry) : Field := { f with current := e }

/-- The field with this value, both now and for the next message. -/
def settle (f : Field) (v : Value) : Field :=
  { f with current := .assigned v, previous := .assigned v }

/-- Whether the field's bit is set in the map. -/
def isMarked (f : Field) (map : PresenceMap) : Bool := f.bit.any map.isSet

@[simp] theorem reset_reset (f : Field) : f.reset.reset = f.reset := rfl

end Field

end MarketFeed
