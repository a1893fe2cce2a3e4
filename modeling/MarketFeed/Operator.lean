import MarketFeed.Value

/-!
# Transmission operators

An operator says what a field sends when its value follows from the previous message.
-/

namespace MarketFeed

inductive Operator where
  | none
  | copy
  | increment
  | delta
  | constant
deriving DecidableEq, Repr, Inhabited

inductive Presence where
  | mandatory
  | optional
deriving DecidableEq, Repr, Inhabited

namespace Operator

def label : Operator → String
  | none => "None"
  | copy => "Copy"
  | increment => "Increment"
  | delta => "Delta"
  | constant => "Constant"

/-- Whether the operator reads or writes the previous value. -/
def isStateful : Operator → Bool
  | copy | increment | delta => true
  | none | constant => false

/-- Whether the operator may be declared on a field of this kind. -/
def allowedOn : Operator → Kind → Bool
  | increment, .int | increment, .uint => true
  | increment, _ => false
  | delta, .int | delta, .uint | delta, .decimal => true
  | delta, _ => false
  | _, kind => kind != .sequence

end Operator

end MarketFeed
