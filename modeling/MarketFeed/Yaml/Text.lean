import MarketFeed.Yaml.Basic
import MarketFeed.Yaml.Glyph

/-!
# Texts

Texts without quotes and in either kind of quotes. Where they go on over several lines, one line
feed stands for a space, and of more breaks the first is dropped if it is a line feed.
-/

namespace MarketFeed.Yaml

/-! ## Pauses -/

/-- What lies between two words of a text: blanks or breaks, the last one first. -/
structure Pause where
  blanks : List Char := []
  breaks : List Char := []
  /-- Whether the first break is none, having been escaped. -/
  escaped : Bool := false
  /-- Whether there is a line feed among the breaks. -/
  fed : Bool := false
deriving DecidableEq, Repr, Inhabited

namespace Pause

/-- Whether the word after the pause is on another line than the one before. -/
def isFold (p : Pause) : Bool := !p.breaks.isEmpty || p.escaped

def isNone (p : Pause) : Bool := p.blanks.isEmpty && !p.isFold

/-- Lengthens the pause by a blank, which counts only between words on one line. -/
def blank (p : Pause) (c : Char) : Pause :=
  if p.isFold then p else { p with blanks := c :: p.blanks }

/-- Lengthens the pause by a break. The one for a next line, U+0085, counts as a line feed. -/
def lineBreak (p : Pause) (g : Glyph) : Pause :=
  { p with
    blanks := []
    breaks := (if g.char = '\x85' then '\n' else g.char) :: p.breaks
    fed := p.fed || g.isLineFeed }

def text (p : Pause) : List Char :=
  match p.escaped, p.breaks.reverse with
  | true, cs => cs
  | false, [] => p.blanks.reverse
  | false, ['\n'] => [' ']
  | false, '\n' :: cs => cs
  | false, cs => cs

/--
Whether a character of a text in quotes may come after the pause. Outside of brackets there is no
line feed in quotes; inside, lines go on at the column `floor` or further right.
-/
def admits (p : Pause) (floor : Option Nat) (g : Glyph) : Bool :=
  if g.isLineFeed then floor.isSome
  else g.char = ' ' || !p.fed || floor.all (· ≤ g.column)

end Pause

/-! ## Without quotes -/

/-- Whether a text without quotes can begin here. -/
def startsPlain (inFlow : Bool) : List Glyph → Bool
  | [] => false
  | g :: gs =>
    if g.char = '-' then !(opensBlank gs || (inFlow && atNext Glyph.isFlowMark gs))
    else if g.char = '?' || g.char = ':' then !inFlow && !opensBlank gs
    else !g.isIndicator

/-- Whether a text without quotes is over before the next character, which comes after `pause`. -/
def endsPlain (inFlow : Bool) (margin : Nat) (pause : Pause) : List Glyph → Bool
  | [] => true
  | g :: gs =>
    (pause.isFold && (atBoundary (g :: gs) || (!inFlow && g.column < margin))) ||
      (!pause.isNone && g.char = '#') || (g.char = ':' && opensBlank gs) || (inFlow && g.isFlowMark)

/--
Whether the next character is out of place in a text without quotes inside of brackets: a colon
before a mark, or a dash before a mark that begins a word.
-/
def isAmbiguous (pause : Pause) : List Glyph → Bool
  | [] => false
  | g :: gs =>
    (g.char = ':' && atNext (fun h => h.isFlowMark || h.char = '?') gs) ||
      (g.char = '-' && !pause.isNone && atNext Glyph.isFlowMark gs)

/--
Reads the words of a text without quotes and the pause behind them, and gives what follows. No tab
stands left of column `margin` on a new line, and outside of brackets nothing does.
-/
def plainWords (inFlow : Bool) (margin : Nat) : Pause → List Glyph → Option (List Char × List Glyph)
  | _, [] => some ([], [])
  | pause, g :: gs =>
    if g.isBreak then plainWords inFlow margin (pause.lineBreak g) gs
    else if g.isBlank then
      if g.isTab && pause.isFold && g.column < margin then none
      else plainWords inFlow margin (pause.blank g.char) gs
    else if endsPlain inFlow margin pause (g :: gs) then some ([], g :: gs)
    else if inFlow && isAmbiguous pause (g :: gs) then none
    else (plainWords inFlow margin {} gs).map fun (cs, rest) => (pause.text ++ g.char :: cs, rest)

/-- Reads a text without quotes, which inside of brackets begins at column `margin` at least. -/
def plainText? (inFlow : Bool) (margin : Nat) (gs : List Glyph) : Option (List Char × List Glyph) :=
  if startsPlain inFlow gs && !(inFlow && atNext (·.column < margin) gs) then
    plainWords inFlow margin {} gs
  else none

/-! ## In quotes -/

/-- Reads to the closing single quote. Two quotes stand for one. -/
def singleQuoted? (floor : Option Nat) : Pause → List Glyph → Option (List Char × List Glyph)
  | _, [] => none
  | pause, g :: gs =>
    let go (c : Char) (r : Option (List Char × List Glyph)) : Option (List Char × List Glyph) :=
      r.map fun (cs, rest) => (pause.text ++ c :: cs, rest)
    if atBoundary (g :: gs) || !pause.admits floor g then none
    else if g.isBreak then singleQuoted? floor (pause.lineBreak g) gs
    else if g.isBlank then singleQuoted? floor (pause.blank g.char) gs
    else if g.char = '\'' then
      match gs with
      | h :: gs =>
        if h.char = '\'' then go '\'' (singleQuoted? floor {} gs) else some (pause.text, h :: gs)
      | [] => some (pause.text, [])
    else go g.char (singleQuoted? floor {} gs)

/-- The character that a backslash and a letter stand for. -/
def escapes : List (Char × Char) :=
  [('0', '\x00'), ('a', '\x07'), ('b', '\x08'), ('t', '\t'), ('\t', '\t'), ('n', '\n'),
    ('v', '\x0b'), ('f', '\x0c'), ('r', '\r'), ('e', '\x1b'), (' ', ' '), ('"', '"'), ('/', '/'),
    ('\\', '\\'), ('N', '\x85'), ('_', '\xa0'), ('L', '\u2028'), ('P', '\u2029')]

/-- The letters that announce a character by its number, and how many digits the number has. -/
def numberedEscapes : List (Char × Nat) := [('x', 2), ('u', 4), ('U', 8)]

/-- Where in an escape a character stands. -/
inductive Escape where
  | outside
  /-- A backslash came before. -/
  | letter
  /-- So many digits are still to come, those before them having this value. -/
  | digits (left value : Nat)
deriving DecidableEq, Repr

/-- Reads to the closing double quote. -/
def doubleQuoted? (floor : Option Nat) :
    Escape → Pause → List Glyph → Option (List Char × List Glyph)
  | _, _, [] => none
  | .outside, pause, g :: gs =>
    if atBoundary (g :: gs) || !pause.admits floor g then none
    else if g.isBreak then doubleQuoted? floor .outside (pause.lineBreak g) gs
    else if g.isBlank then doubleQuoted? floor .outside (pause.blank g.char) gs
    else if g.char = '"' then some (pause.text, gs)
    else if g.char = '\\' then
      (doubleQuoted? floor .letter {} gs).map fun (cs, rest) => (pause.text ++ cs, rest)
    else
      (doubleQuoted? floor .outside {} gs).map fun (cs, rest) => (pause.text ++ g.char :: cs, rest)
  | .letter, _, g :: gs =>
    if g.isLineFeed then
      if floor.isNone then none
      else doubleQuoted? floor .outside { escaped := true, fed := true } gs
    else match numberedEscapes.lookup g.char with
      | some digits => doubleQuoted? floor (.digits digits 0) {} gs
      | none => do
        let c ← escapes.lookup g.char
        let (cs, rest) ← doubleQuoted? floor .outside {} gs
        return (c :: cs, rest)
  | .digits left value, _, g :: gs => do
    let digit ← hexDigit? g.char
    let value := 16 * value + digit
    if left = 1 then
      if value.isValidChar then
        let (cs, rest) ← doubleQuoted? floor .outside {} gs
        return (Char.ofNat value :: cs, rest)
      else none
    else doubleQuoted? floor (.digits (left - 1) value) {} gs

/-- Reads a text in whichever form it has. -/
def scalar? (floor : Option Nat) (margin : Nat) (gs : List Glyph) : Option (Yaml × List Glyph) :=
  match gs with
  | [] => none
  | g :: inside =>
    let make (f : String → Yaml) (r : Option (List Char × List Glyph)) :
      Option (Yaml × List Glyph) :=
      r.map fun (cs, rest) => (f (String.ofList cs), rest)
    if g.char = '\'' then make .quoted (singleQuoted? floor {} inside)
    else if g.char = '"' then make .quoted (doubleQuoted? floor .outside {} inside)
    else make .plain (plainText? floor.isSome margin gs)

end MarketFeed.Yaml
