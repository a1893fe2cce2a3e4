import MarketFeed.Message.Basic

/-!
# Templates

A template declares the fields of a message. A set of templates is checked once, and what passes is
flat: fields, and groups of fields. Presence bits are then handed out in the order of declaration,
bit 0 of a message being taken by the template id.
-/

namespace MarketFeed

/-- A field as declared, before it is known whether its parts may stand where they do. -/
inductive FieldSpec where
  | scalar (decl : Decl)
  | group (decl : Decl) (length : FieldSpec) (row : List FieldSpec)
deriving Inhabited

namespace FieldSpec

def decl : FieldSpec → Decl
  | scalar d => d
  | group d _ _ => d

def name (s : FieldSpec) : String := s.decl.name

/-- A group that is present whenever its length is. -/
def sequence (decl : Decl) (length : FieldSpec) (row : List FieldSpec) : FieldSpec :=
  .group { decl with presence := length.decl.presence } length row

def withDecl (d : Decl) : FieldSpec → FieldSpec
  | scalar _ => .scalar d
  | group _ length row => .group d length row

/-- The field made optional; a group is so through its length. -/
def optional : FieldSpec → FieldSpec
  | scalar d => .scalar { d with presence := .optional }
  | group d length row =>
    .group { d with presence := .optional }
      (length.withDecl { length.decl with presence := .optional }) row

/-- Whether a presence bit is set aside for the field; a group asks for its length's. -/
def requiresBit : FieldSpec → Bool
  | scalar d => d.requiresBit
  | group _ length _ => length.requiresBit

/-- Hands out presence bits from `next` on to the fields that require one. -/
def assignBits : Nat → List FieldSpec → List (FieldSpec × Option Nat)
  | _, [] => []
  | next, s :: specs =>
    if s.requiresBit then (s, some next) :: assignBits (next + 1) specs
    else (s, none) :: assignBits next specs

/-- The item that a message holds for the field. -/
def toItem (s : FieldSpec) (bit : Option Nat) : Item :=
  match s with
  | scalar d => .scalar (.fresh d bit)
  | group d length row =>
    .group {
      head := .fresh d none
      length := .fresh length.decl bit
      dictionary := (assignBits 0 row).map fun (s, bit) => .fresh s.decl bit }

end FieldSpec

structure Template where
  id : UInt32
  name : String
  resets : Bool := false
  fields : List FieldSpec
deriving Inhabited

inductive TemplateError where
  | duplicateId (id : UInt32)
  | tooMany (count max : Nat)
  | invalidOperator (template : UInt32) (field : String) (op : Operator) (kind : Kind)
  | missingConstant (template : UInt32) (field : String)
  | resetTypeMismatch (template : UInt32) (field : String)
  | invalidLength (template : UInt32) (field : String)
  | nestedSequence (template : UInt32) (field : String)
  | pmapOverflow (template : UInt32) (max : Nat)
  | duplicateField (template : UInt32) (field : String)
deriving DecidableEq, Repr, Inhabited

def TemplateError.message : TemplateError → String
  | duplicateId id => s!"duplicate template id {id}"
  | tooMany count max => s!"too many templates: {count} exceeds {max}"
  | invalidOperator template field op kind =>
    s!"template {template}: operator {op.label} is not valid on {kind.label} field {field}"
  | missingConstant template field => s!"template {template}: constant field {field} has no value"
  | resetTypeMismatch template field =>
    s!"template {template}: initial value of {field} does not match its type"
  | invalidLength template field =>
    s!"template {template}: sequence {field} length must be an unsigned integer"
  | nestedSequence template field => s!"template {template}: nested sequence {field}"
  | pmapOverflow template max =>
    s!"template {template}: presence map needs more than {max} bits"
  | duplicateField template field => s!"template {template}: duplicate field name {field}"

namespace Template

def position? (t : Template) (name : String) : Option Nat :=
  t.fields.findIdx? (·.name == name)

def bitsNeeded (specs : List FieldSpec) : Nat := specs.countP (·.requiresBit)

/-- The first name that an earlier field has too. -/
def repeatedName? : List String → List FieldSpec → Option String
  | _, [] => none
  | seen, s :: specs =>
    if seen.contains s.name then some s.name else repeatedName? (s.name :: seen) specs

variable (t : Template)

def checkNames (specs : List FieldSpec) : Except TemplateError Unit :=
  match repeatedName? [] specs with
  | some name => .error (.duplicateField t.id name)
  | none => .ok ()

/-- The operator and the initial value suit the kind; those of a group itself are not used. -/
def checkDecl (d : Decl) : Except TemplateError Unit :=
  if d.kind = .sequence then .ok ()
  else if !d.op.allowedOn d.kind then .error (.invalidOperator t.id d.name d.op d.kind)
  else
    match d.init with
    | some v => if v.hasKind d.kind then .ok () else .error (.resetTypeMismatch t.id d.name)
    | none => if d.op = .constant then .error (.missingConstant t.id d.name) else .ok ()

def checkRowField (s : FieldSpec) : Except TemplateError Unit :=
  if s.decl.kind = .sequence then .error (.nestedSequence t.id s.name) else t.checkDecl s.decl

def checkSpec (s : FieldSpec) : Except TemplateError Unit := do
  t.checkDecl s.decl
  match s with
  | .scalar _ => return
  | .group d length row =>
    if length.decl.kind != .uint then throw (.invalidLength t.id d.name)
    t.checkDecl length.decl
    if PresenceMap.maxBits < bitsNeeded row then throw (.pmapOverflow t.id PresenceMap.maxBits)
    t.checkNames row
    row.forM t.checkRowField

/-- Whether messages of the template can be decoded and encoded, and the first reason why not. -/
def validate : Except TemplateError Unit := do
  if PresenceMap.maxBits ≤ bitsNeeded t.fields then
    throw (.pmapOverflow t.id PresenceMap.maxBits)
  t.checkNames t.fields
  t.fields.forM t.checkSpec

/-- A message of the template that nothing has been put into. -/
def toMessage : Message where
  id := t.id
  name := t.name
  resets := t.resets
  items := (FieldSpec.assignBits 1 t.fields).map fun (s, bit) => s.toItem bit

end Template

namespace TemplateSet

/-- The most templates of a set. -/
def maxTemplates : Nat := 128

/-- Checks the templates in turn, `seen` being the ids of those before them. -/
def checkFrom : List UInt32 → List Template → Except TemplateError Unit
  | _, [] => .ok ()
  | seen, t :: ts => do
    t.validate
    if seen.contains t.id then throw (.duplicateId t.id)
    checkFrom (t.id :: seen) ts

def check (ts : List Template) : Except TemplateError Unit :=
  if maxTemplates < ts.length then .error (.tooMany ts.length maxTemplates) else checkFrom [] ts

end TemplateSet

/-- Templates that have been checked. -/
structure TemplateSet where
  templates : List Template
  accepted : TemplateSet.check templates = .ok ()

namespace TemplateSet

def ofList (ts : List Template) : Except TemplateError TemplateSet :=
  match h : check ts with
  | .ok () => .ok ⟨ts, h⟩
  | .error e => .error e

/-- The messages of the set, all of them fresh. -/
def messages (set : TemplateSet) : Messages := set.templates.map Template.toMessage

end TemplateSet

end MarketFeed
