import MarketFeed.Field.Encode
import MarketFeed.Progress

/-!
# Repeating groups

The rows of a group share one dictionary: what a row inherits is the row before it. Each row keeps
its own entries, and a row that is no longer part of the group is kept for later use.
-/

namespace MarketFeed

/-- The most rows of a group. -/
def maxRows : Nat := 64

/-- One entry for each row field. -/
abbrev Row := List Entry

structure Group where
  /-- The group's own declaration and entry, which nothing on the wire sets. -/
  head : Field
  length : Field
  dictionary : List Field
  rows : List Row := []
  /-- Rows behind the last one, in the order in which they come back. -/
  spare : List Row := []
deriving DecidableEq, Repr, Inhabited

namespace Group

/-- The number of rows of the message. -/
def count (g : Group) : Nat := g.rows.length

/-- Whether each row has a presence map of its own. -/
def rowsHaveMap (g : Group) : Bool := g.dictionary.any (·.bit.isSome)

def position? (g : Group) (name : String) : Option Nat :=
  g.dictionary.findIdx? (·.decl.name == name)

/-- Makes exactly `n` rows current. A new one starts as the dictionary stands. -/
def resize (g : Group) (n : Nat) : Group :=
  let all := g.rows ++ g.spare
  let all := all ++ List.replicate (n - all.length) (g.dictionary.map (·.current))
  { g with rows := all.take n, spare := all.drop n }

/-- Sets the number of rows to send: `none` past the capacity. -/
def setLength? (g : Group) (n : Nat) : Option Group :=
  if n ≤ maxRows then
    let g := g.resize n
    some { g with length := g.length.put (.assigned (.uint (.ofNat n))) }
  else none

/-- The group is sent as absent. -/
def setAbsent (g : Group) : Group :=
  let g := g.resize 0
  { g with length := g.length.put g.length.current.emptied }

/-- Changes the entries of a row, each by the change at its position, as far as both go. -/
def updateRow (g : Group) (i : Nat) (changes : List (Entry → Entry)) : Group :=
  { g with
    rows := g.rows.modify i fun row =>
      List.zipWith (fun change e => change e) changes row ++ row.drop changes.length }

/-- The number of rows that the length stands for. -/
def transmittedLength (g : Group) : UInt64 := g.length.current.asUInt.getD 0

/-- The row's entries as they were before the first message. -/
def resetRow (g : Group) (row : Row) : Row :=
  (g.dictionary.zip row).map fun (f, _) => .undefined f.decl.initial

def reset (g : Group) : Group :=
  { g with
    head := g.head.reset
    length := g.length.reset
    dictionary := g.dictionary.map Field.reset
    rows := []
    spare := (g.rows ++ g.spare).map g.resetRow }

end Group

end MarketFeed
