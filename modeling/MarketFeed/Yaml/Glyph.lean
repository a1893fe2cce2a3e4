/-!
# Characters in place

In YAML the place of a text says how it is nested, so every character carries its line and column.
This module finds the marks that hold a text together and skips what lies between them. Where
something is out of place the gap ends, and as no mark stands there, the next reader fails.
-/

namespace MarketFeed.Yaml

structure Glyph where
  char : Char
  line : Nat
  column : Nat
  /-- How many bytes come before. -/
  offset : Nat
deriving DecidableEq, Repr, Inhabited

namespace Glyph

/-- Whether the character is a line feed. The other breaks begin a new line only within texts. -/
def isLineFeed (g : Glyph) : Bool := g.char = '\n'

/-- Whether a new line begins behind the character, so that columns count from there. -/
def isBreak (g : Glyph) : Bool := ['\n', '\x85', '\u2028', '\u2029'].contains g.char

def isTab (g : Glyph) : Bool := g.char = '\t'

def isBlank (g : Glyph) : Bool := g.char = ' ' || g.isTab

/-- Whether the character holds collections in brackets together. -/
def isFlowMark (g : Glyph) : Bool := [',', '[', ']', '{', '}'].contains g.char

/-- Whether no text without quotes begins with the character. -/
def isIndicator (g : Glyph) : Bool :=
  g.isFlowMark || g.isBlank || g.isBreak ||
    ['#', '&', '*', '!', '|', '>', '\'', '"', '%', '@', '\x60'].contains g.char

end Glyph

/-- Writes the line breaks of all systems as one line feed. -/
def unifyBreaks : List Char → List Char
  | [] => []
  | '\r' :: '\n' :: cs => '\n' :: unifyBreaks cs
  | '\r' :: cs => '\n' :: unifyBreaks cs
  | c :: cs => c :: unifyBreaks cs

/-- Gives each character its place, the first standing at `line`, `column` and `offset`. -/
def placed (line column offset : Nat) : List Char → List Glyph
  | [] => []
  | c :: cs =>
    let g : Glyph := ⟨c, line, column, offset⟩
    let offset := offset + c.utf8Size
    g :: if g.isBreak then placed (line + 1) 0 offset cs else placed line (column + 1) offset cs

/-- Whether a character may stand in a document. -/
def isPrintable (c : Char) : Bool :=
  c = '\t' || c = '\n' || c = '\r' || (' ' ≤ c && c ≤ '~') || c = '\x85' ||
    ('\xa0' ≤ c && c.toNat ≤ 0xfffd) || 0x10000 ≤ c.toNat

/-! ## Marks -/

/-- Whether the next character is there and has the property `p`. -/
def atNext (p : Glyph → Bool) (gs : List Glyph) : Bool := gs.head?.any p

/-- Whether a blank, a break or the end comes next. -/
def opensBlank (gs : List Glyph) : Bool := gs.head?.all fun g => g.isBlank || g.isBreak

/-- Whether a dash and a blank come next, as before an item. -/
def atDash : List Glyph → Bool
  | [] => false
  | g :: gs => g.char = '-' && opensBlank gs

/-- Whether a colon comes next that ends a key. Inside of brackets no blank is needed after it. -/
def atColon (inFlow : Bool) : List Glyph → Bool
  | [] => false
  | g :: gs => g.char = ':' && (inFlow || opensBlank gs)

/-- Whether three characters `c` come next at the beginning of a line, and a blank. -/
def atMark (c : Char) : List Glyph → Bool
  | g :: h :: k :: gs =>
    g.column = 0 && g.char = c && h.char = c && k.char = c && opensBlank gs
  | _ => false

/-- Whether a document begins or ends here. -/
def atBoundary (gs : List Glyph) : Bool := atMark '-' gs || atMark '.' gs

/-! ## Gaps -/

/-- Where in a gap between two marks a character stands. -/
inductive Gap where
  /-- Right behind a mark, where no comment begins. -/
  | adjacent
  /-- Behind a blank that follows something on this line. -/
  | within
  /-- Only blanks so far on this line. -/
  | indent
  | comment
deriving DecidableEq, Repr

namespace Gap

/-- The place behind a blank. -/
def blank : Gap → Gap
  | adjacent => within
  | gap => gap

end Gap

/-- Whether nothing but blanks and a comment is left on the line. -/
def holdsNothing (gs : List Glyph) : Bool :=
  (gs.dropWhile Glyph.isBlank).head?.all fun g => g.isLineFeed || g.char = '#'

/--
Whether a tab among the blanks that a line begins with is out of place. A tab indents nothing:
outside of brackets there is none, and inside none left of column `floor`, unless nothing follows.
-/
def barsTab (floor : Option Nat) : List Glyph → Bool
  | [] => false
  | g :: gs => g.isTab && floor.all fun column => g.column < column && !holdsNothing gs

/--
Drops blanks, breaks and comments, and stops where something else stands or something is out of
place; there no mark is. The floor is a column inside of brackets and none outside.
-/
def skip (floor : Option Nat) : Gap → List Glyph → List Glyph
  | _, [] => []
  | gap, g :: gs =>
    if g.isBreak then
      if gap = .comment || g.isLineFeed then skip floor .indent gs else g :: gs
    else if gap = .comment then skip floor .comment gs
    else if g.isBlank then
      if gap = .indent && barsTab floor (g :: gs) then g :: gs else skip floor gap.blank gs
    else if g.char = '#' && gap ≠ .adjacent then skip floor .comment gs
    else g :: gs

/-- Goes to the next line that holds something; nothing else may be left on this one. -/
def endLine? (gs : List Glyph) : Option (List Glyph) :=
  match gs, skip none .adjacent gs with
  | g :: _, h :: hs => if g.line < h.line then some (h :: hs) else none
  | _, next => some next

end MarketFeed.Yaml
