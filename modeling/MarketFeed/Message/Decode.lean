import MarketFeed.Message.Basic

/-!
# Decoding the fields of a message
-/

namespace MarketFeed

/-- A place in a message: the item, and the place inside it if it is a group. -/
structure Place where
  item : Nat := 0
  group : GroupPlace := .length
deriving DecidableEq, Repr, Inhabited

namespace Item

/-- Reads the item's part of a message, a group from `place` on. -/
def read (i : Item) (map : PresenceMap) (place : GroupPlace) (bytes : List UInt8) :
    Progress Item GroupPlace :=
  match i with
  | scalar f =>
    match f.read map bytes with
    | .done f rest => ⟨scalar f, .done, rest⟩
    | .dry => ⟨scalar f, .dry .length, bytes⟩
    | .garbled e rest => ⟨scalar f, .garbled e, rest⟩
  | group g => (g.read map place bytes).within group id

/-- Reads item after item, the first from `place` on. -/
def readAll (map : PresenceMap) :
    List Item → GroupPlace → List UInt8 → Progress (List Item) Place
  | [], _, bytes => ⟨[], .done, bytes⟩
  | i :: items, place, bytes =>
    match i.read map place bytes with
    | ⟨i, .dry place, rest⟩ => ⟨i :: items, .dry ⟨0, place⟩, rest⟩
    | ⟨i, .garbled e, rest⟩ => ⟨i :: items, .garbled e, rest⟩
    | ⟨i, .done, rest⟩ =>
      (readAll map items .length rest).within (i :: ·) fun p => { p with item := p.item + 1 }

end Item

namespace Message

/-- Reads the rest of the message from `place` on. -/
def read (m : Message) (map : PresenceMap) (place : Place) (bytes : List UInt8) :
    Progress Message Place :=
  (Item.readAll map (m.items.drop place.item) place.group bytes).within
    (fun items => { m with items := m.items.take place.item ++ items })
    fun p => { p with item := place.item + p.item }

end Message

end MarketFeed
