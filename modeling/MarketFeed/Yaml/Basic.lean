import MarketFeed.Yaml.Sense

/-!
# YAML nodes

What a text in YAML stands for, and how a node is read as something. A scalar without quotes is kept
as it is written, because what it stands for depends on who asks.

All that is under `Yaml` takes the place of a library that reads configurations. Nothing else depends
on it: `Config.ofText` is given the reader, and checks whatever that one has read.
-/

namespace MarketFeed

inductive Yaml where
  | plain (text : String)
  | quoted (text : String)
  | sequence (items : List Yaml)
  | mapping (entries : List (Yaml × Yaml))
deriving Repr, Inhabited

namespace Yaml

/-- What stands where nothing is written. -/
def empty : Yaml := .plain ""

/-- The text of a scalar, whatever else it may stand for. -/
def text? : Yaml → Option String
  | plain t | quoted t => some t
  | sequence _ | mapping _ => none

/-- The text of a scalar that stands for nothing but a text. -/
def words? : Yaml → Option String
  | plain t => if sense t = .text then some t else none
  | quoted t => some t
  | sequence _ | mapping _ => none

def bool? : Yaml → Option Bool
  | plain t => switch? t
  | _ => none

def int? : Yaml → Option Int
  | plain t => integer? t.toList
  | _ => none

/-- A natural number below `bound`. -/
def natBelow? (bound : Nat) (y : Yaml) : Option Nat :=
  match y.int? with
  | some (.ofNat n) => if n < bound then some n else none
  | _ => none

/-- Whether a node stands for nothing. -/
def standsForNull : Yaml → Bool
  | plain t => isNull t
  | _ => false

/-- Reads what is not null with `f`. -/
def nullable? {α : Type} (f : Yaml → Option α) (y : Yaml) : Option (Option α) :=
  if y.standsForNull then some none else (f y).map some

/-- The items of a sequence; null has none. -/
def items? : Yaml → Option (List Yaml)
  | sequence ys => some ys
  | y => if y.standsForNull then some [] else none

/-- The entries of a mapping, whose keys have to be scalars of which no two are equal. -/
def entries? : Yaml → Option (List (String × Yaml))
  | mapping es => do
    let keys ← es.mapM (·.1.text?)
    if keys.Nodup then some (keys.zip (es.map (·.2))) else none
  | y => if y.standsForNull then some [] else none

/-- Reads the entry `key`, which has to be there. -/
def required {α : Type} (es : List (String × Yaml)) (key : String) (f : Yaml → Option α) :
    Option α :=
  (es.lookup key).bind f

/-- Reads the entry `key`, or gives `default` if there is none. -/
def optional {α : Type} (es : List (String × Yaml)) (key : String) (default : α)
    (f : Yaml → Option α) : Option α :=
  match es.lookup key with
  | some y => f y
  | none => some default

/--
Whether a node can be kept until it is known what it should be: its integers have at most 64 bits,
no scalar is the key of two entries, and its collections are nested at most `depth` deep.
-/
def isStorable : Nat → Yaml → Bool
  | _, plain t => match sense t with
    | .integer n => isInteger64 n
    | _ => true
  | _, quoted _ => true
  | 0, sequence _ | 0, mapping _ => false
  | depth + 1, sequence ys => ys.all (isStorable depth)
  | depth + 1, mapping es =>
    (es.filterMap (·.1.text?)).Nodup &&
      es.all fun (k, v) => isStorable depth k && isStorable depth v

end Yaml

end MarketFeed
