import MarketFeed.Message.Basic

/-!
# Encoding the fields of a message

As with a group, the items are given back in either case, moved as far as they were written.
-/

namespace MarketFeed

namespace Item

def write (i : Item) (map : PresenceMap) :
    Except EncodeError (PresenceMap × List UInt8) × Item :=
  match i with
  | scalar f =>
    match f.write map with
    | .ok w => (.ok (w.map, w.bytes), scalar w.field)
    | .error e => (.error e, scalar f)
  | group g =>
    let (written, g) := g.write map
    (written, group g)

/-- Writes item after item into a message whose presence map so far is `map`. -/
def writeAll : List Item → PresenceMap →
    Except EncodeError (PresenceMap × List UInt8) × List Item
  | [], map => (.ok (map, []), [])
  | i :: items, map =>
    match i.write map with
    | (.error e, i) => (.error e, i :: items)
    | (.ok (map, bytes), i) =>
      match writeAll items map with
      | (.error e, items) => (.error e, i :: items)
      | (.ok (map, rest), items) => (.ok (map, bytes ++ rest), i :: items)

end Item

namespace Message

/-- Writes the fields of the message behind what has gone into `map` so far. -/
def write (m : Message) (map : PresenceMap) :
    Except EncodeError (PresenceMap × List UInt8) × Message :=
  let (written, items) := Item.writeAll m.items map
  (written, { m with items })

end Message

end MarketFeed
