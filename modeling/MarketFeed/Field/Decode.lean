import MarketFeed.Field.Basic

/-!
# Decoding a field

The token is read and checked whole before the field changes, so a read that runs dry or is garbled
leaves the field as it was. The operator then says what a value, a NULL or an unset presence bit
means for the two entries.
-/

namespace MarketFeed

/-- The most bytes of a length-prefixed string. -/
def maxVectorBytes : Nat := 1024

/-! ## Raw values -/

/-- Nullable integers leave room for NULL by moving the nonnegative ones up by one. -/
def unshiftInt (v : Int64) : Option Int64 :=
  if v = 0 then none else if 0 < v then some (v - 1) else some v

def unshiftUInt (v : UInt64) : Option UInt64 := if v = 0 then none else some (v - 1)

namespace Read

def nullableInt (optional : Bool) : Read (Option Int64) := do
  let v ← readInt
  return if optional then unshiftInt v else some v

def nullableUInt (optional : Bool) : Read (Option UInt64) := do
  let v ← readUInt
  return if optional then unshiftUInt v else some v

/-- Two numbers, of which the first can be NULL for both. -/
def nullablePair (optional : Bool) : Read (Option (Int64 × Int64)) := do
  match ← nullableInt optional with
  | none => return none
  | some a => return some (a, ← readInt)

end Read

/--
The text that a run stands for. A run of zeros only carries one zero more than its text, or two more
in an optional field, where a single zero is NULL.
-/
def textOfRun (optional : Bool) (run : List UInt8) : Option (List UInt8) :=
  if run.all (· == 0) then
    if optional then
      if run.length = 1 then none else some (run.drop 2)
    else some (run.drop 1)
  else some run

/-- A length and that many bytes; Unicode ones must be well-formed. -/
def readVector (optional unicode : Bool) : Read (Option (List UInt8)) := do
  match ← Read.nullableUInt optional with
  | none => return none
  | some length =>
    if maxVectorBytes < length.toNat then Read.fail (.stringOverflow maxVectorBytes)
    else
      let data ← Read.take length.toNat
      if unicode && (utf8? data).isNone then Read.fail .invalidUtf8 else return some data

/-- The decimal, if its exponent is one that messages may carry. -/
def checkedDecimal (mantissa exponent : Int64) : Except DecodeError Value :=
  let d : Decimal := ⟨mantissa, exponent⟩
  if d.hasValidExponent then .ok (.decimal d) else .error (.exponentOutOfRange exponent)

/-- A value as the field's kind writes it, `none` for NULL. -/
def Decl.readValue (d : Decl) : Read (Option Value) :=
  match d.kind with
  | .int => do return (← Read.nullableInt d.isOptional).map .int
  | .uint => do return (← Read.nullableUInt d.isOptional).map .uint
  | .decimal => do
    match ← Read.nullablePair d.isOptional with
    | none => return none
    | some (exponent, mantissa) => return some (← Read.ofExcept (checkedDecimal mantissa exponent))
  | .ascii => do return (textOfRun d.isOptional (← readText)).map .bytes
  | .unicode => do return (← readVector d.isOptional true).map .bytes
  | .bytes => do return (← readVector d.isOptional false).map .bytes
  | .sequence => Read.fail .nestedSequence

/-! ## Operators -/

namespace Field

/-- What the field takes from a value that was sent plainly. -/
def receive (f : Field) : Option Value → Field
  | some v => f.put (.assigned v)
  | none => f.put f.current.emptied

/-- What the field takes from a value that the next message may leave out. -/
def receiveKept (f : Field) : Option Value → Field
  | some v => f.settle v
  | none => { f with current := f.current.emptied, previous := f.previous.emptied }

/-- What the previous entry implies for a field that was left out. -/
def inherit (f : Field) : Except DecodeError Field :=
  match f.previous.state with
  | .assigned =>
    if f.decl.op = .increment then
      match f.previous.value.successor with
      | some v => .ok (f.settle v)
      | none => .error .integerOverflow
    else .ok (f.settle f.previous.value)
  | .empty =>
    if f.decl.isMandatory then .error (.mandatoryMissing f.decl.id)
    else .ok (f.put f.current.emptied)
  | .undefined =>
    match f.decl.init with
    | some v => .ok (f.settle v)
    | none =>
      if f.decl.isOptional then
        .ok { f with current := f.current.emptied, previous := f.previous.emptied }
      else .error (.mandatoryMissing f.decl.id)

/-- The previous integer moved by a delta. -/
def addDelta (f : Field) (delta : Int64) : Except DecodeError Value :=
  let sum? :=
    match f.previous.value with
    | .int base => (toInt64? (base.toInt + delta.toInt)).map Value.int
    | .uint base => (toUInt64? (base.toNat + delta.toInt)).map Value.uint
    | _ => none
  match sum? with
  | some v => .ok v
  | none => .error .integerOverflow

/-- The previous decimal moved by a delta of each part. -/
def addDecimalDelta (f : Field) (exponent mantissa : Int64) : Except DecodeError Value :=
  let base := f.previous.value.asDecimal.getD .zero
  match toInt64? (base.exponent.toInt + exponent.toInt),
      toInt64? (base.mantissa.toInt + mantissa.toInt) with
  | some exponent, some mantissa => checkedDecimal mantissa exponent
  | _, _ => .error .integerOverflow

/-- The value that a delta leads to, `none` for NULL. -/
def readDelta (f : Field) : Read (Option Value) :=
  match f.decl.kind with
  | .int | .uint => do
    match ← Read.nullableInt f.decl.isOptional with
    | none => return none
    | some delta => return some (← Read.ofExcept (f.addDelta delta))
  | .decimal => do
    match ← Read.nullablePair f.decl.isOptional with
    | none => return none
    | some (exponent, mantissa) =>
      return some (← Read.ofExcept (f.addDecimalDelta exponent mantissa))
  | _ => Read.fail (.invalidOperator f.decl.id f.decl.op)

/-- A NULL delta leaves the previous value to count from. -/
def receiveDelta (f : Field) : Option Value → Field
  | some v => f.settle v
  | none => f.put f.current.emptied

/-- A constant is never sent; an optional one is absent while its bit is unset. -/
def takeConstant (f : Field) (map : PresenceMap) : Except DecodeError Field :=
  if f.decl.isOptional && !f.isMarked map then .ok (f.put f.current.emptied)
  else
    match f.decl.init with
    | some v => .ok (f.put (.assigned v))
    | none => .error (.mandatoryMissing f.decl.id)

/-- Reads the field's part of a message whose presence map is `map`. -/
def read (f : Field) (map : PresenceMap) : Read Field :=
  if f.decl.op.allowedOn f.decl.kind then
    match f.decl.op with
    | .none => do return f.receive (← f.decl.readValue)
    | .copy | .increment =>
      if f.isMarked map then do return f.receiveKept (← f.decl.readValue)
      else Read.ofExcept f.inherit
    | .delta => do return f.receiveDelta (← f.readDelta)
    | .constant => Read.ofExcept (f.takeConstant map)
  else Read.fail (.invalidOperator f.decl.id f.decl.op)

end Field

end MarketFeed
