import MarketFeed.Group.Decode
import MarketFeed.Group.Encode

/-!
# Messages

A message holds the fields of its template together with their dictionaries. There is one per
template and direction, and every decode or encode works on it in place.
-/

namespace MarketFeed

inductive Item where
  | scalar (f : Field)
  | group (g : Group)
deriving DecidableEq, Repr, Inhabited

namespace Item

/-- The field that the item is looked up by: the field itself, or the group's own. -/
def head : Item → Field
  | scalar f => f
  | group g => g.head

def group? : Item → Option Group
  | scalar _ => none
  | group g => some g

def name (i : Item) : String := i.head.decl.name

/-- Changes the entry of the field, or of the group's own one. -/
def update (change : Entry → Entry) : Item → Item
  | scalar f => .scalar (f.put (change f.current))
  | group g => .group { g with head := g.head.put (change g.head.current) }

def reset : Item → Item
  | scalar f => .scalar f.reset
  | group g => .group g.reset

/-- The item's bit of the presence map; a group has its length's. -/
def bit? : Item → Option Nat
  | scalar f => f.bit
  | group g => g.length.bit

def requiresBit : Item → Bool
  | scalar f => f.decl.requiresBit
  | group g => g.length.decl.requiresBit

end Item

structure Message where
  id : UInt32
  name : String
  /-- Whether the message ends the session's history: no dictionary outlives it. -/
  resets : Bool := false
  items : List Item
deriving DecidableEq, Repr, Inhabited

namespace Message

def position? (m : Message) (name : String) : Option Nat :=
  m.items.findIdx? (·.name == name)

def item? (m : Message) (name : String) : Option Item :=
  m.items.find? (·.name == name)

def field? (m : Message) (name : String) : Option Field :=
  (m.item? name).map Item.head

def group? (m : Message) (name : String) : Option Group :=
  m.item? name >>= Item.group?

/-- Changes the item of that name, if there is one. -/
def modify (m : Message) (name : String) (f : Item → Item) : Message :=
  match m.position? name with
  | some i => { m with items := m.items.modify i f }
  | none => m

/-- Changes the group of that name, if there is one. -/
def modifyGroup (m : Message) (name : String) (f : Group → Group) : Message :=
  m.modify name fun
    | .scalar field => .scalar field
    | .group g => .group (f g)

/-- The message as it was before anything was decoded or encoded. -/
def reset (m : Message) : Message := { m with items := m.items.map Item.reset }

end Message

/-- One message for each template, in the order of the templates. -/
abbrev Messages := List Message

namespace Messages

/-- The slot of the message with that template id. -/
def slot? (ms : Messages) (id : UInt32) : Option Nat := ms.findIdx? (·.id == id)

def find? (ms : Messages) (id : UInt32) : Option Message := List.find? (·.id == id) ms

def reset (ms : Messages) : Messages := ms.map Message.reset

end Messages

end MarketFeed
