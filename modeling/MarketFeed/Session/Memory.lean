import MarketFeed.Session.Source

/-!
# The receive buffer in memory

The unread bytes lie anywhere in the memory, and a read is offered what is behind them. It may leave
there whatever it likes, and tells how many bytes at the front of it count. Where that is less than a
message, the unread bytes are first copied to the front, over themselves if need be, and the memory is
doubled if this has not made room enough. Places and counts are words, whose sums wrap around where
arithmetic that is checked stops.
-/

namespace MarketFeed

/-- Why a read has brought nothing. -/
inductive ReadFailure where
  | interrupted
  | wouldBlock
  | failed (reason : String)
deriving DecidableEq, Repr, Inhabited

/-- What a read comes to: how many bytes it has brought, and the room as it leaves it. -/
structure Reply where
  count : Except ReadFailure Nat
  room : List UInt8

/-- The bytes that a read has brought. -/
def Reply.bytes (r : Reply) : List UInt8 :=
  match r.count with
  | .ok n => r.room.take n
  | .error _ => []

/-- What can be read from: it answers by the room that it is offered, and brings no more than that. -/
structure Reader where
  read : List UInt8 → Reply
  length_room : ∀ room, (read room).room.length = room.length
  count_le : ∀ room n, (read room).count = .ok n → n ≤ room.length

/-- The memory of a receive buffer. The bytes from `start` to `stop` are unread. -/
structure Memory where
  data : List UInt8
  start : UInt64 := 0
  stop : UInt64 := 0
deriving DecidableEq, Repr

namespace Memory

def create (capacity : UInt64) : Memory where
  data := List.replicate (max capacity.toNat maxMessageBytes) 0

def unread (b : Memory) : List UInt8 := (b.data.take b.stop.toNat).drop b.start.toNat

/-- What is behind the unread bytes. -/
def room (b : Memory) : List UInt8 := b.data.drop b.stop.toNat

/--
Drops `n` bytes, or all if there are fewer, unless the sum of place and count wraps around. A memory
without unread bytes starts over.
-/
def consume (b : Memory) (n : UInt64) : Memory :=
  let start := min (b.start + n) b.stop
  if start = b.stop then { b with start := 0, stop := 0 } else { b with start }

/-- The bytes from `start` to `stop`, as they were, put over those from `dest` on. -/
def copyWithin (data : List UInt8) (start stop dest : Nat) : List UInt8 :=
  data.take dest ++ (data.take stop).drop start ++ data.drop (dest + (stop - start))

/-- Moves the unread bytes to the front. -/
def compact (b : Memory) : Memory where
  data := copyWithin b.data b.start.toNat b.stop.toNat 0
  stop := b.stop - b.start

/-- Doubles the memory, with zeros behind what is there. -/
def grow (b : Memory) : Memory :=
  { b with data := b.data ++ List.replicate b.data.length 0 }

/-- Makes room for a message. -/
def makeRoom (b : Memory) : Memory :=
  if b.data.length - b.stop.toNat < maxMessageBytes then
    let b := b.compact
    if b.data.length - b.stop.toNat < maxMessageBytes then b.grow else b
  else b

/-- The memory with this in the room. -/
def written (b : Memory) (room : List UInt8) : Memory :=
  { b with data := b.data.take b.stop.toNat ++ room }

/-- What a read comes to, of the room that is made for it. -/
def reply (b : Memory) (r : Reader) : Reply := r.read b.makeRoom.room

/-- Reads once, and tells how many bytes have come. -/
def fill (b : Memory) (r : Reader) : Except ReadFailure Nat × Memory :=
  let left := b.makeRoom.written (b.reply r).room
  match (b.reply r).count with
  | .ok n => (.ok n, { left with stop := left.stop + .ofNat n })
  | .error e => (.error e, left)

end Memory

end MarketFeed
