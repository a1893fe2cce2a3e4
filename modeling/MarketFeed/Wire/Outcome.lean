import MarketFeed.Operator

/-!
# Reading tokens

A read takes one token off the front of the bytes that have arrived. It ends in one of three ways:
with a value and the bytes behind it, dry (the token is not complete yet), or garbled. A dry read
says nothing about the bytes, so whoever waits for more keeps them all.
-/

namespace MarketFeed

/-- Why a message can never be decoded, whatever bytes follow. -/
inductive DecodeError where
  | unknownTemplate (id : UInt64)
  | missingTemplateId
  | pmapOverflow (max : Nat)
  | integerOverflow
  | stringOverflow (max : Nat)
  | invalidOperator (field : UInt32) (op : Operator)
  | mandatoryMissing (field : UInt32)
  | exponentOutOfRange (exponent : Int64)
  | sequenceTooLong (length : UInt64) (max : Nat)
  | nestedSequence
  | invalidUtf8
deriving DecidableEq, Repr, Inhabited

def DecodeError.message : DecodeError → String
  | unknownTemplate id => s!"unknown template id: {id}"
  | missingTemplateId => "template id omitted with no previous template"
  | pmapOverflow max => s!"presence map longer than {max} bytes"
  | integerOverflow => "integer overflow"
  | stringOverflow max => s!"string longer than {max} bytes"
  | invalidOperator field op => s!"operator {op.label} not valid for field {field}"
  | mandatoryMissing field => s!"mandatory field {field} has no value"
  | exponentOutOfRange exponent => s!"decimal exponent {exponent} out of range"
  | sequenceTooLong length max => s!"sequence length {length} exceeds capacity {max}"
  | nestedSequence => "nested sequences are not supported"
  | invalidUtf8 => "invalid UTF-8 in unicode string"

/-- Why there is no value: the bytes have not all arrived, or what arrived is garbled. -/
inductive DecodeFailure where
  | incomplete
  | garbled (error : DecodeError)
deriving DecidableEq, Repr, Inhabited

def DecodeFailure.message : DecodeFailure → String
  | incomplete => "incomplete message: more bytes needed"
  | garbled error => error.message

inductive Outcome (α : Type) where
  | done (value : α) (rest : List UInt8)
  | dry
  | garbled (error : DecodeError) (rest : List UInt8)
deriving DecidableEq, Repr

/-- A reader of one token. -/
def Read (α : Type) := List UInt8 → Outcome α

namespace Read

def pure {α : Type} (a : α) : Read α := fun bytes => .done a bytes

def bind {α β : Type} (read : Read α) (next : α → Read β) : Read β := fun bytes =>
  match read bytes with
  | .done a rest => next a rest
  | .dry => .dry
  | .garbled e rest => .garbled e rest

instance : Monad Read where
  pure := pure
  bind := bind

instance : LawfulMonad Read :=
  LawfulMonad.mk' Read
    (fun read => by
      funext bytes; simp only [Functor.map, bind, pure, Function.comp]; cases read bytes <;> rfl)
    (fun _ _ => rfl)
    (fun read _ _ => by
      funext bytes; simp only [Bind.bind, bind]; cases read bytes <;> rfl)

/-- Fails on what has been read so far. -/
def fail {α : Type} (e : DecodeError) : Read α := fun bytes => .garbled e bytes

def ofExcept {α : Type} : Except DecodeError α → Read α
  | .ok a => pure a
  | .error e => fail e

/-- The next byte. -/
def byte : Read UInt8
  | [] => .dry
  | b :: rest => .done b rest

/-- The next `n` bytes. -/
def take (n : Nat) : Read (List UInt8) := fun bytes =>
  if n ≤ bytes.length then .done (bytes.take n) (bytes.drop n) else .dry

end Read

end MarketFeed
