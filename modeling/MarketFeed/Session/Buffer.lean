/-!
# The receive buffer

A queue of bytes with a fixed amount of memory: the unread bytes lie behind a start offset, and what
can be read in one go is the space behind them. They are moved to the front, and the memory is
doubled, only when there is no room left for a message of the largest size.
-/

namespace MarketFeed

/-- The size of the largest message. -/
def maxMessageBytes : Nat := 2048

structure Buffer where
  capacity : Nat
  start : Nat := 0
  unread : List UInt8 := []
deriving DecidableEq, Repr, Inhabited

namespace Buffer

def create (capacity : Nat) : Buffer where
  capacity := max capacity maxMessageBytes

/-- The room behind the unread bytes. -/
def space (b : Buffer) : Nat := b.capacity - (b.start + b.unread.length)

/-- Drops `n` bytes, or all if there are fewer. -/
def consume (b : Buffer) (n : Nat) : Buffer :=
  let unread := b.unread.drop n
  { b with unread, start := if unread.isEmpty then 0 else b.start + n }

/-- Drops everything. -/
def clear (b : Buffer) : Buffer := b.consume b.unread.length

/-- Makes room for a message, by moving the bytes and if need be by doubling the memory. -/
def makeRoom (b : Buffer) : Buffer :=
  if maxMessageBytes ≤ b.space then b
  else
    let b := { b with start := 0 }
    if maxMessageBytes ≤ b.space then b else { b with capacity := b.capacity * 2 }

/-- Puts bytes behind the unread ones. -/
def append (b : Buffer) (bytes : List UInt8) : Buffer := { b with unread := b.unread ++ bytes }

@[simp] theorem unread_consume (b : Buffer) (n : Nat) :
    (b.consume n).unread = b.unread.drop n := rfl

@[simp] theorem unread_clear (b : Buffer) : b.clear.unread = [] := by simp [clear]

@[simp] theorem unread_makeRoom (b : Buffer) : b.makeRoom.unread = b.unread := by
  unfold makeRoom
  split
  · rfl
  · dsimp only; split <;> rfl

end Buffer

end MarketFeed
