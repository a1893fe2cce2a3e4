import MarketFeed.Field.Decode
import MarketFeed.Wire.Cursor

/-!
# Decoding a field in place

A decoder that owns its field reads a token part by part and writes the parts of the field one
after the other. Nothing takes a write back: a failure leaves the field as the writes before it have
made it, and only the cursor is moved back, by the token.
-/

namespace MarketFeed

/-- A field that is being decoded, and the cursor over its bytes. -/
structure Reception where
  cursor : Cursor
  field : Field
deriving Repr

namespace Reception

/-- A part of decoding. It ends with what the field and the cursor are by then, failed or not. -/
abbrev Step := EStateM DecodeFailure Reception

/-! ## Reading -/

def look : Step Field := fun s => .ok s.field s

/-- Reads at the cursor, which stays where the read has ended. -/
def fetch {α : Type} (read : Read α) : Step α := fun s =>
  match s.cursor.run read with
  | (.ok a, cursor) => .ok a { s with cursor }
  | (.error e, cursor) => .error e { s with cursor }

def fail {α : Type} (e : DecodeError) : Step α := fun s => .error (.garbled e) s

def check {α : Type} : Except DecodeError α → Step α
  | .ok a => pure a
  | .error e => fail e

/-- Moves the cursor back if the bytes of the token have not all arrived. -/
def token {α : Type} (step : Step α) : Step α := fun s =>
  match step s with
  | .error .incomplete s' => .error .incomplete { s' with cursor := s.cursor }
  | outcome => outcome

/-! ## Writing -/

def setValue (v : Value) : Step Unit :=
  modify fun s => { s with field.current.value := v }

def setState (state : State) : Step Unit :=
  modify fun s => { s with field.current.state := state }

def setPrevious (v : Value) : Step Unit :=
  modify fun s => { s with field.previous.value := v }

def setPreviousState (state : State) : Step Unit :=
  modify fun s => { s with field.previous.state := state }

/-- Writes the value, if there is one, and tells whether there was. -/
def store : Option Value → Step Bool
  | some v => do
    setValue v
    return true
  | none => return false

/-! ## Raw values -/

def fetchVector (optional unicode : Bool) : Step Bool := do
  match ← fetch (Read.nullableUInt optional) with
  | none => return false
  | some length =>
    if maxVectorBytes < length.toNat then fail (.stringOverflow maxVectorBytes)
    else
      let data ← fetch (Read.take length.toNat)
      if unicode && (utf8? data).isNone then fail .invalidUtf8 else store (some (.bytes data))

/-- Reads a value into the field; `false` is a NULL, for which the value is kept. -/
def fetchValue : Step Bool := do
  let d := (← look).decl
  match d.kind with
  | .int => store ((← fetch (Read.nullableInt d.isOptional)).map .int)
  | .uint => store ((← fetch (Read.nullableUInt d.isOptional)).map .uint)
  | .decimal =>
    match ← fetch (Read.nullableInt d.isOptional) with
    | none => return false
    | some exponent =>
      let mantissa ← fetch readInt
      store (some (← check (checkedDecimal mantissa exponent)))
  | .ascii => store ((textOfRun d.isOptional (← fetch readText)).map .bytes)
  | .unicode => fetchVector d.isOptional true
  | .bytes => fetchVector d.isOptional false
  | .sequence => fail .nestedSequence

/-! ## Operators -/

/-- Makes the value just read the previous one too. -/
def storePrevious : Bool → Step Unit
  | true => do
    setPrevious (← look).current.value
    setState .assigned
    setPreviousState .assigned
  | false => do
    setState .empty
    setPreviousState .empty

/-- Takes what the previous entry implies for a field that was left out. -/
def inherit : Step Unit := do
  let f ← look
  match f.previous.state with
  | .assigned =>
    -- The previous value is counted up itself, and only then copied.
    if f.decl.op = .increment then
      match f.previous.value.successor with
      | some v => setPrevious v
      | none => fail .integerOverflow
    setValue (← look).previous.value
    setState .assigned
  | .empty =>
    if f.decl.isMandatory then fail (.mandatoryMissing f.decl.id) else setState .empty
  | .undefined =>
    match f.decl.init with
    | some v =>
      setValue v
      setPrevious v
      setState .assigned
      setPreviousState .assigned
    | none =>
      if f.decl.isOptional then
        setState .empty
        setPreviousState .empty
      else fail (.mandatoryMissing f.decl.id)

/-- Writes the value that a delta has led to; without one the previous value is kept. -/
def advance : Option Value → Step Unit
  | some v => do
    setPrevious v
    setValue v
    setState .assigned
    setPreviousState .assigned
  | none => setState .empty

def fetchDelta : Step Unit := do
  let f ← look
  match f.decl.kind with
  | .int | .uint =>
    match ← fetch (Read.nullableInt f.decl.isOptional) with
    | none => advance none
    | some delta => advance (some (← check (f.addDelta delta)))
  | .decimal =>
    match ← fetch (Read.nullableInt f.decl.isOptional) with
    | none => advance none
    | some exponent =>
      let mantissa ← fetch readInt
      advance (some (← check (f.addDecimalDelta exponent mantissa)))
  | _ => fail (.invalidOperator f.decl.id f.decl.op)

def takeConstant (map : PresenceMap) : Step Unit := do
  let f ← look
  if f.decl.isOptional && !f.isMarked map then setState .empty
  else
    match f.decl.init with
    | some v =>
      setValue v
      setState .assigned
    | none => fail (.mandatoryMissing f.decl.id)

def operate (map : PresenceMap) : Step Unit := do
  let f ← look
  match f.decl.op with
  | .none => setState (if ← fetchValue then .assigned else .empty)
  | .copy | .increment => if f.isMarked map then storePrevious (← fetchValue) else inherit
  | .delta => fetchDelta
  | .constant => takeConstant map

/-- Decodes the field's part of a message whose presence map is `map`. -/
def decode (map : PresenceMap) : Step Unit := do
  let f ← look
  if f.decl.op.allowedOn f.decl.kind then token (operate map)
  else fail (.invalidOperator f.decl.id f.decl.op)

end Reception

end MarketFeed
