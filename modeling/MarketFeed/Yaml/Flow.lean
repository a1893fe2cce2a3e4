import MarketFeed.Yaml.Text

/-!
# Nodes within a line

Scalars, and collections in brackets, which may spread over lines. The first number that a reader
takes is the column from which on a text without quotes may stand. The second bounds the depth of
the recursion: every step that lowers it uses up a mark or enters the node that begins at one. The
third says how many brackets may still be opened.
-/

namespace MarketFeed.Yaml

/-- Where a reader has come to. -/
structure Spot where
  rest : List Glyph
  /-- Inside of brackets the column left of which no mark may stand, outside none. -/
  floor : Option Nat
deriving DecidableEq, Repr, Inhabited

/-- The gap behind a node; that behind a text without quotes has already begun. -/
def gapAfter : Yaml → Gap
  | plain _ => .within
  | quoted _ | sequence _ | mapping _ => .adjacent

/-- How many bytes the beginning of a key may lie before its colon. -/
def keyReach : Nat := 1024

/-- Whether a character cannot follow tabs alone behind the colon of a key. -/
def needsSpace (g : Glyph) : Bool :=
  g.char.isAlphanum || g.char = '_' || g.char = '-'

/-- What follows the colon of the key that began at the first of `key`, on whose line it stands. -/
def afterKey? (inFlow : Bool) (key gs : List Glyph) : Option (List Glyph) :=
  match key, gs with
  | k :: _, g :: rest =>
    let tabbed := atNext Glyph.isTab rest && atNext needsSpace (rest.dropWhile Glyph.isTab)
    let inReach := g.line = k.line && g.offset ≤ k.offset + keyReach
    if atColon inFlow gs && inReach && !tabbed then some rest else none
  | _, _ => none

namespace Spot

/-- The spot behind the next character. -/
def next (s : Spot) : Spot := { s with rest := s.rest.tail }

def isAt (s : Spot) (c : Char) : Bool := atNext (·.char = c) s.rest

/-- The spot behind a gap, where a mark stands that is indented enough. -/
def skip? (s : Spot) (gap : Gap) : Option Spot :=
  let gs := skip s.floor gap s.rest
  if atNext (fun g => s.floor.any (g.column < ·)) gs then none else some { s with rest := gs }

/-- The spot behind an opening bracket and the gap that follows it. -/
def enter? (s : Spot) (margin : Nat) : Option Spot :=
  skip? { s.next with floor := some (s.floor.getD margin) } .adjacent

end Spot

mutual

/--
Reads a scalar or a collection in brackets. Behind a text without quotes, marks may stand one column
further to the left than before.
-/
def flowNode? (margin : Nat) : Nat → Nat → Spot → Option (Yaml × Spot)
  | 0, _, _ => none
  | fuel + 1, depth, s =>
    if (s.isAt '[' || s.isAt '{') && depth = 0 then none
    else if s.isAt '[' then do
      let (ys, s) ← flowItems? margin fuel (depth - 1) (← s.enter? margin)
      return (.sequence ys, s)
    else if s.isAt '{' then do
      let (es, s) ← flowEntries? margin fuel (depth - 1) (← s.enter? margin)
      return (.mapping es, s)
    else do
      let (y, rest) ← scalar? s.floor margin s.rest
      let floor := match y with
        | plain _ => s.floor.map fun _ => margin - 1
        | _ => s.floor
      return (y, ⟨rest, floor⟩)

/-- Reads a node inside of brackets and the gap behind it. -/
def flowPart? (margin : Nat) : Nat → Nat → Spot → Option (Yaml × Spot)
  | 0, _, _ => none
  | fuel + 1, depth, s => do
    let (y, s) ← flowNode? margin fuel depth s
    return (y, ← s.skip? (gapAfter y))

/-- Reads the value of an entry inside of brackets, which may be left out. -/
def flowValue? (margin : Nat) : Nat → Nat → Spot → Option (Yaml × Spot)
  | 0, _, _ => none
  | fuel + 1, depth, s => do
    let s ← s.skip? .within
    if [',', ']', '}'].any s.isAt then some (.empty, s)
    else flowPart? margin fuel depth s

/-- Reads the items up to the closing bracket; an entry is a mapping of its own. -/
def flowItems? (margin : Nat) : Nat → Nat → Spot → Option (List Yaml × Spot)
  | 0, _, _ => none
  | fuel + 1, depth, s =>
    if s.isAt ']' then some ([], s.next)
    else do
      let key := s.rest
      let (y, s) ← flowPart? margin fuel depth s
      let (y, s) ←
        match afterKey? true key s.rest with
        | some rest => do
          let (value, s) ← flowValue? margin fuel depth { s with rest }
          pure (Yaml.mapping [(y, value)], s)
        | none => some (y, s)
      if s.isAt ',' then
        let (ys, s) ← flowItems? margin fuel depth (← s.next.skip? .adjacent)
        return (y :: ys, s)
      else if s.isAt ']' then return ([y], s.next)
      else none

/-- Reads the entries up to the closing bracket. -/
def flowEntries? (margin : Nat) : Nat → Nat → Spot → Option (List (Yaml × Yaml) × Spot)
  | 0, _, _ => none
  | fuel + 1, depth, s =>
    if s.isAt '}' then some ([], s.next)
    else do
      let key := s.rest
      let (y, s) ← flowPart? margin fuel depth s
      let (value, s) ←
        match afterKey? true key s.rest with
        | some rest => flowValue? margin fuel depth { s with rest }
        | none => some (.empty, s)
      if s.isAt ',' then
        let (es, s) ← flowEntries? margin fuel depth (← s.next.skip? .adjacent)
        return ((y, value) :: es, s)
      else if s.isAt '}' then return ([(y, value)], s.next)
      else none

end

/-- How many brackets may be open at a time. -/
def bracketLimit : Nat := 255

/-- Reads a node that begins outside of brackets. -/
def inline? (margin fuel : Nat) (gs : List Glyph) : Option (Yaml × List Glyph) :=
  (flowNode? margin fuel bracketLimit ⟨gs, none⟩).map fun (y, s) => (y, s.rest)

end MarketFeed.Yaml
