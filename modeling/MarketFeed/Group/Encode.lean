import MarketFeed.Group.Basic

/-!
# Encoding a group

The group is given back in either case: a row that cannot be written leaves the dictionary as far as
the rows and fields before it have moved it.
-/

namespace MarketFeed.Group

/-- Writes the fields of a row, each with the row's entry. A group in a row is refused. -/
def writeCells : List Field → Row → PresenceMap →
    Except EncodeError (PresenceMap × List UInt8) × List Field
  | f :: fields, entry :: row, map =>
    if f.decl.kind = .sequence then (.error .nestedSequence, f :: fields)
    else
      let f := f.put entry
      match f.write map with
      | .error e => (.error e, f :: fields)
      | .ok w =>
        match writeCells fields row w.map with
        | (.error e, fields) => (.error e, w.field :: fields)
        | (.ok (map, bytes), fields) => (.ok (map, w.bytes ++ bytes), w.field :: fields)
  | fields, _, map => (.ok (map, []), fields)

/-- Writes row after row, each behind its presence map if it has one. -/
def writeRows (withMap : Bool) : List Field → List Row →
    Except EncodeError (List UInt8) × List Field
  | fields, [] => (.ok [], fields)
  | fields, row :: rows =>
    match writeCells fields row .empty with
    | (.error e, fields) => (.error e, fields)
    | (.ok (map, bytes), fields) =>
      match writeRows withMap fields rows with
      | (.error e, fields) => (.error e, fields)
      | (.ok rest, fields) => (.ok ((if withMap then map.write else []) ++ bytes ++ rest), fields)

/-- Writes the length and that many rows into a message whose presence map so far is `map`. -/
def write (g : Group) (map : PresenceMap) :
    Except EncodeError (PresenceMap × List UInt8) × Group :=
  let n := g.transmittedLength
  let rows := g.rows ++ g.spare
  if maxRows < n.toNat ∨ rows.length < n.toNat then (.error (.sequenceTooLong n maxRows), g)
  else
    match g.length.write map with
    | .error e => (.error e, g)
    | .ok w =>
      let g := { g with length := w.field }
      match writeRows g.rowsHaveMap g.dictionary (rows.take n.toNat) with
      | (.error e, dictionary) => (.error e, { g with dictionary })
      | (.ok bytes, dictionary) => (.ok (w.map, w.bytes ++ bytes), { g with dictionary })

end MarketFeed.Group
