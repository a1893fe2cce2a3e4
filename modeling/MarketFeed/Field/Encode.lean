import MarketFeed.Field.Decode

/-!
# Encoding a field

A field is written in three steps: it is checked, it sets its presence bit unless the receiver can
do without the value, and it writes its bytes. Only then does the previous entry change, exactly as
the receiver's will.
-/

namespace MarketFeed

/-- Why a message cannot be written. -/
inductive EncodeError where
  | unknownTemplate (id : UInt32)
  | valueOutOfRange (field : UInt32)
  | mandatoryMissing (field : UInt32)
  | invalidOperator (field : UInt32) (op : Operator)
  | typeMismatch (field : UInt32)
  | exponentOutOfRange (exponent : Int64)
  | sequenceTooLong (length : UInt64) (max : Nat)
  | nestedSequence
  | pmapOverflow (field : UInt32)
deriving DecidableEq, Repr, Inhabited

def EncodeError.message : EncodeError → String
  | unknownTemplate id => s!"unknown template id: {id}"
  | valueOutOfRange field => s!"value of field {field} cannot be represented"
  | mandatoryMissing field => s!"mandatory field {field} has no value"
  | invalidOperator field op => s!"operator {op.label} not valid for field {field}"
  | typeMismatch field => s!"value of field {field} does not match its type"
  | exponentOutOfRange exponent => s!"decimal exponent {exponent} out of range"
  | sequenceTooLong length max => s!"sequence length {length} exceeds capacity {max}"
  | nestedSequence => "nested sequences are not supported"
  | pmapOverflow field => s!"presence map has no room for field {field}"

/-- A NULL, whatever the kind. -/
def nullBytes : List UInt8 := [128]

namespace Decl

/-- The word of a checked sum, or the error that this field cannot send it. -/
def sendable {α : Type} (d : Decl) : Option α → Except EncodeError α
  | some v => .ok v
  | none => .error (.valueOutOfRange d.id)

/-- The integer on the wire: an optional field makes room for NULL. -/
def shiftInt (d : Decl) (v : Int64) : Except EncodeError Int64 :=
  if d.isOptional && decide (0 ≤ v) then d.sendable (toInt64? (v.toInt + 1)) else .ok v

def shiftUInt (d : Decl) (v : UInt64) : Except EncodeError UInt64 :=
  if d.isOptional then d.sendable (toUInt64? (v.toNat + 1)) else .ok v

/-- Text as a run: zeros only are lengthened, so that NULL and the empty text stay apart. -/
def writeAscii (d : Decl) (text : List UInt8) : Except EncodeError (List UInt8) :=
  if text.any (128 ≤ ·) then .error (.valueOutOfRange d.id)
  else
    let run :=
      if text.all (· == 0) then text ++ List.replicate (if d.isOptional then 2 else 1) 0 else text
    if maxTextBytes < run.length then .error (.valueOutOfRange d.id) else .ok (writeText run)

def writeVector (d : Decl) (bytes : List UInt8) : Except EncodeError (List UInt8) :=
  if maxVectorBytes < bytes.length then .error (.valueOutOfRange d.id)
  else .ok (writeUInt (.ofNat (bytes.length + if d.isOptional then 1 else 0)) ++ bytes)

/-- The entry as the field's kind writes it. -/
def writeValue (d : Decl) (e : Entry) : Except EncodeError (List UInt8) :=
  if !e.isAssigned then .ok nullBytes
  else
    match e.value with
    | .int v => do return writeInt (← d.shiftInt v)
    | .uint v => do return writeUInt (← d.shiftUInt v)
    | .decimal v =>
      if v.hasValidExponent then do
        return writeInt (← d.shiftInt v.exponent) ++ writeInt v.mantissa
      else .error (.exponentOutOfRange v.exponent)
    | .bytes bs => if d.kind = .ascii then d.writeAscii bs else d.writeVector bs

end Decl

namespace Field

/-- Whether the field may be sent at all as it stands. -/
def checkSendable (f : Field) : Except EncodeError Unit :=
  if !f.decl.op.allowedOn f.decl.kind then .error (.invalidOperator f.decl.id f.decl.op)
  else if f.current.isAssigned && !f.current.value.hasKind f.decl.kind then
    .error (.typeMismatch f.decl.id)
  else if f.decl.isMandatory && !f.current.isAssigned && f.decl.op != .constant then
    .error (.mandatoryMissing f.decl.id)
  else .ok ()

/-- Whether the receiver infers just the current entry when the presence bit is unset. -/
def isImplied (f : Field) : Bool :=
  match f.previous.state with
  | .assigned =>
    f.current.isAssigned &&
      if f.decl.op = .increment then f.previous.value.successor == some f.current.value
      else f.previous.value == f.current.value
  | .empty => !f.current.isAssigned
  | .undefined =>
    match f.decl.init with
    | some v => f.current.isAssigned && v == f.current.value
    | none => !f.current.isAssigned && f.decl.isOptional

/-- Whether the field is sent by setting its presence bit. -/
def marks (f : Field) : Bool :=
  match f.decl.op with
  | .copy | .increment => !f.isImplied
  | .constant => f.decl.isOptional && f.current.isAssigned
  | .none | .delta => false

/-- The presence map with the field's bit set, if it marks itself. -/
def mark (f : Field) (map : PresenceMap) : Except EncodeError PresenceMap :=
  if f.marks then
    match f.bit.bind map.set? with
    | some map => .ok map
    | none => .error (.pmapOverflow f.decl.id)
  else .ok map

/-- The step from the previous entry to the current one. -/
def writeDelta (f : Field) : Except EncodeError (List UInt8) :=
  let d := f.decl
  if !f.current.isAssigned then .ok nullBytes
  else
    match f.current.value, f.previous.value with
    | .int v, .int base => do
      let delta ← d.sendable (toInt64? (v.toInt - base.toInt))
      return writeInt (← d.shiftInt delta)
    | .uint v, .uint base => do
      let delta ← d.sendable (toInt64? (v.toNat - base.toNat))
      return writeInt (← d.shiftInt delta)
    | .decimal v, .decimal base =>
      if v.hasValidExponent then do
        let exponent ← d.sendable (toInt64? (v.exponent.toInt - base.exponent.toInt))
        let mantissa ← d.sendable (toInt64? (v.mantissa.toInt - base.mantissa.toInt))
        return writeInt (← d.shiftInt exponent) ++ writeInt mantissa
      else .error (.exponentOutOfRange v.exponent)
    | _, _ => .error (.typeMismatch d.id)

/-- The bytes that the field sends. -/
def payload (f : Field) : Except EncodeError (List UInt8) :=
  match f.decl.op with
  | .none => f.decl.writeValue f.current
  | .copy | .increment => if f.marks then f.decl.writeValue f.current else .ok []
  | .delta => f.writeDelta
  | .constant => .ok []

/-- The field once its current entry has been sent. -/
def remembering (f : Field) : Field :=
  match f.decl.op with
  | .copy | .increment =>
    if f.current.isAssigned then { f with previous := f.current }
    else { f with previous := f.previous.emptied }
  | .delta => if f.current.isAssigned then { f with previous := f.current } else f
  | .none | .constant => f

/-- What a field adds to a message: the map with its bit, its bytes, and the field afterwards. -/
structure Written where
  map : PresenceMap
  bytes : List UInt8
  field : Field
deriving Repr

def write (f : Field) (map : PresenceMap) : Except EncodeError Written := do
  f.checkSendable
  let map ← f.mark map
  let bytes ← f.payload
  return { map, bytes, field := f.remembering }

/-- The presence map after an attempt to write: the bit is set before the value is tried. -/
def mapAfterWrite (f : Field) (map : PresenceMap) : PresenceMap :=
  match f.checkSendable, f.mark map with
  | .ok _, .ok marked => marked
  | _, _ => map

end Field

end MarketFeed
