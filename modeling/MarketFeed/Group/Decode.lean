import MarketFeed.Group.Basic

/-!
# Decoding a group

The length comes first, then row after row. Every place between two tokens can be the place where
the bytes run dry.
-/

namespace MarketFeed

/-- A place in a row: the row's map, once it has been read, and the next field. -/
structure RowPlace where
  map : Option PresenceMap := none
  field : Nat := 0
deriving DecidableEq, Repr, Inhabited

/-- A place in a group: in front of the length, or in some row. -/
inductive GroupPlace where
  | length
  | row (index : Nat) (place : RowPlace)
deriving DecidableEq, Repr, Inhabited

namespace Group

/-- Reads a field of a row. A group in a row is refused before anything is read. -/
def readCell (f : Field) (map : PresenceMap) : Read Field :=
  if f.decl.kind = .sequence then Read.fail .nestedSequence else f.read map

/-- Reads the fields of a row, and copies each into the row's entry. -/
def readCells (map : PresenceMap) :
    List Field → Row → List UInt8 → Progress (List Field × Row) Nat
  | f :: fields, entry :: row, bytes =>
    match readCell f map bytes with
    | .done f rest =>
      (readCells map fields row rest).within
        (fun (fields, row) => (f :: fields, f.current :: row)) (· + 1)
    | .dry => ⟨(f :: fields, entry :: row), .dry 0, bytes⟩
    | .garbled e rest => ⟨(f :: fields, entry :: row), .garbled e, rest⟩
  | fields, row, bytes => ⟨(fields, row), .done, bytes⟩

/-- Reads a row from its field number `start` on. -/
def readRow (map : PresenceMap) (start : Nat) (fields : List Field) (row : Row)
    (bytes : List UInt8) : Progress (List Field × Row) Nat :=
  (readCells map (fields.drop start) (row.drop start) bytes).within
    (fun (fields', row') => (fields.take start ++ fields', row.take start ++ row')) (start + ·)

/-- The map of a row: the one read before, the one in front of the row, or none at all. -/
def readRowMap (withMap : Bool) (place : RowPlace) : Read PresenceMap :=
  match place.map with
  | some map => pure map
  | none => if withMap then PresenceMap.read else pure .empty

/-- Reads rows one after another, the first from `place` on. -/
def readRows (withMap : Bool) :
    List Field → List Row → RowPlace → List UInt8 → Progress (List Field × List Row) GroupPlace
  | fields, [], _, bytes => ⟨(fields, []), .done, bytes⟩
  | fields, row :: rows, place, bytes =>
    match readRowMap withMap place bytes with
    | .dry => ⟨(fields, row :: rows), .dry (.row 0 place), bytes⟩
    | .garbled e rest => ⟨(fields, row :: rows), .garbled e, rest⟩
    | .done map rest =>
      let kept := if withMap then some map else none
      match readRow map place.field fields row rest with
      | ⟨(fields, row), .dry field, rest⟩ =>
        ⟨(fields, row :: rows), .dry (.row 0 ⟨kept, field⟩), rest⟩
      | ⟨(fields, row), .garbled e, rest⟩ => ⟨(fields, row :: rows), .garbled e, rest⟩
      | ⟨(fields, row), .done, rest⟩ =>
        (readRows withMap fields rows {} rest).within
          (fun (fields, rows) => (fields, row :: rows))
          fun
            | .length => .length
            | .row i place => .row (i + 1) place

/-- Reads the rows from number `start` on. -/
def readFrom (g : Group) (start : Nat) (place : RowPlace) (bytes : List UInt8) :
    Progress Group GroupPlace :=
  (readRows g.rowsHaveMap g.dictionary (g.rows.drop start) place bytes).within
    (fun (dictionary, rows) => { g with dictionary, rows := g.rows.take start ++ rows })
    fun
      | .length => .length
      | .row i place => .row (start + i) place

/-- Reads the group's part of a message from `place` on. -/
def read (g : Group) (map : PresenceMap) (place : GroupPlace) (bytes : List UInt8) :
    Progress Group GroupPlace :=
  match place with
  | .row i place => g.readFrom i place bytes
  | .length =>
    match g.length.read map bytes with
    | .dry => ⟨g, .dry .length, bytes⟩
    | .garbled e rest => ⟨g, .garbled e, rest⟩
    | .done length rest =>
      let g := { g with length }
      let n := g.transmittedLength
      if maxRows < n.toNat then ⟨g, .garbled (.sequenceTooLong n maxRows), rest⟩
      else (g.resize n.toNat).readFrom 0 {} rest

end Group

end MarketFeed
