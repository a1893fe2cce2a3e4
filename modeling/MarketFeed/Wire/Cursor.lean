import MarketFeed.Wire.Outcome

/-!
# A cursor over a buffer

Reads work on the bytes that are left; a cursor remembers where in the buffer they start. A token
that runs dry moves nothing. Outside a token, a run that ends dry has taken every byte.
-/

namespace MarketFeed

structure Cursor where
  buffer : List UInt8
  position : Nat := 0
  position_le : position ≤ buffer.length := by omega
deriving Repr

namespace Cursor

def ofBytes (buffer : List UInt8) : Cursor := { buffer }

def unread (c : Cursor) : List UInt8 := c.buffer.drop c.position

def remaining (c : Cursor) : Nat := c.buffer.length - c.position

def isEmpty (c : Cursor) : Bool := c.remaining == 0

/-- Moves anywhere inside the buffer, or to its end. -/
def seek (c : Cursor) (position : Nat) : Cursor where
  buffer := c.buffer
  position := min position c.buffer.length
  position_le := Nat.min_le_right ..

/-- The cursor whose unread bytes are the last of the buffer, as many as there are in `rest`. -/
def before (c : Cursor) (rest : List UInt8) : Cursor where
  buffer := c.buffer
  position := c.buffer.length - rest.length
  position_le := Nat.sub_le ..

/-- Reads one token whole, or leaves the cursor where it is. -/
def token {α : Type} (c : Cursor) (read : Read α) : Except DecodeFailure α × Cursor :=
  match read c.unread with
  | .done a rest => (.ok a, c.before rest)
  | .dry => (.error .incomplete, c)
  | .garbled e rest => (.error (.garbled e), c.before rest)

/-- Reads a run, keeping what was taken even if its end has not arrived. -/
def run {α : Type} (c : Cursor) (read : Read α) : Except DecodeFailure α × Cursor :=
  match read c.unread with
  | .done a rest => (.ok a, c.before rest)
  | .dry => (.error .incomplete, c.seek c.buffer.length)
  | .garbled e rest => (.error (.garbled e), c.before rest)

/-- The next byte, which stays unread. -/
def peek (c : Cursor) : Except DecodeFailure UInt8 :=
  match c.buffer[c.position]? with
  | some b => .ok b
  | none => .error .incomplete

end Cursor

end MarketFeed
