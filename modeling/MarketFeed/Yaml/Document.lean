import MarketFeed.Yaml.Flow

/-!
# Documents

Nodes laid out in lines and nested by their columns, and the documents that hold one such node.
`parse?` reads mappings, sequences and scalars, with comments and marks between documents; anchors,
tags, directives, marked keys and texts in block form are none of it.
-/

namespace MarketFeed.Yaml

/-- Goes behind the gap after the node `y`, which nothing may follow on its last line. -/
def leave? (y : Yaml) (gs : List Glyph) : Option (List Glyph) :=
  match y with
  | plain _ => some (skip none .within gs)
  | _ => endLine? gs

/-- What follows the colon behind the key `y`, which began at the first of `key`. -/
def afterBlockKey? (y : Yaml) (key gs : List Glyph) : Option (List Glyph) :=
  afterKey? false key (skip none (gapAfter y) gs)

mutual

/--
Reads the node that begins at the first of `gs`, and goes to the mark after it. Whatever belongs to
it stands at column `margin` or further right. At most `depth` collections open in it at a time.
-/
def blockNode? (margin : Nat) : Nat → Nat → List Glyph → Option (Yaml × List Glyph)
  | 0, _, _ => none
  | _ + 1, _, [] => none
  | fuel + 1, depth, g :: gs =>
    if atDash (g :: gs) then
      if depth = 0 then none
      else (blockItems? g.column fuel (depth - 1) (g :: gs)).map fun (ys, rest) =>
        (.sequence ys, rest)
    else do
      let (y, rest) ← inline? margin fuel (g :: gs)
      if (afterBlockKey? y (g :: gs) rest).isSome then
        if depth = 0 then none
        else
          let (es, rest) ← blockEntries? g.column fuel (depth - 1) (g :: gs)
          return (.mapping es, rest)
      else return (y, ← leave? y rest)

/-- Reads the items whose dashes stand at `column`, the first of them coming next. -/
def blockItems? (column : Nat) : Nat → Nat → List Glyph → Option (List Yaml × List Glyph)
  | 0, _, _ => none
  | _ + 1, _, [] => none
  | fuel + 1, depth, _ :: gs => do
    let next := skip none .indent gs
    let (y, next) ←
      if atNext (column < ·.column) next && !atBoundary next then
        blockNode? (column + 1) fuel depth next
      else some (.empty, next)
    if atNext (·.column = column) next && atDash next then
      let (ys, rest) ← blockItems? column fuel depth next
      return (y :: ys, rest)
    else return ([y], next)

/-- Reads the entries whose keys stand at `column`, the first of them coming next. -/
def blockEntries? (column : Nat) : Nat → Nat → List Glyph → Option (List (Yaml × Yaml) × List Glyph)
  | 0, _, _ => none
  | fuel + 1, depth, gs => do
    let (key, rest) ← inline? (column + 1) fuel gs
    let rest ← afterBlockKey? key gs rest
    let next := skip none .within rest
    let (value, next) ←
      if atNext (fun g => atNext (·.line = g.line) gs) next then do
        let (y, rest) ← inline? (column + 1) fuel next
        pure (y, ← leave? y rest)
      else if atBoundary next then some (.empty, next)
      else if atNext (fun g => column < g.column || (column = g.column && atDash next)) next then
        blockNode? (column + 1) fuel depth next
      else some (.empty, next)
    if next.isEmpty || atBoundary next || atNext (·.column < column) next then
      return ([(key, value)], next)
    else if atNext (·.column = column) next then
      let (es, rest) ← blockEntries? column fuel depth next
      return ((key, value) :: es, rest)
    else none

end

/-- How many collections without brackets may be open at a time. -/
def blockLimit : Nat := 255

/-- Reads the node of a document whose mark is already behind, if it had one. -/
def root? (fuel : Nat) (next : List Glyph) : Option (Yaml × List Glyph) :=
  if next.isEmpty || atBoundary next then some (.empty, next)
  else blockNode? 0 fuel blockLimit next

/-- Reads a text that holds one document. Its node may stand on the line of the leading mark. -/
def parseGlyphs? (fuel : Nat) (gs : List Glyph) : Option Yaml := do
  let start := skip none .indent gs
  let (y, rest) ←
    if atMark '-' start then
      let next := skip none .within (start.drop 3)
      if atNext (fun g => 0 < g.column && atNext (·.line = g.line) start) next then do
        let (y, rest) ← inline? 0 fuel next
        pure (y, ← leave? y rest)
      else root? fuel next
    else root? fuel start
  let rest ← if atMark '.' rest then endLine? (rest.drop 3) else some rest
  if rest.isEmpty then some y else none

/-- Reads a document. -/
def parse? (text : String) : Option Yaml :=
  let cs := text.toList
  if cs.all isPrintable && cs.head? ≠ some '\ufeff' then
    parseGlyphs? (4 * cs.length + 4) (placed 0 0 0 (unifyBreaks cs))
  else none

end MarketFeed.Yaml
