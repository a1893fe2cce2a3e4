import MarketFeed.Message.Encode

/-!
# Encoding a stream of messages

The template id is left out while it repeats.
-/

namespace MarketFeed

structure Encoder where
  /-- The template id of the last message, unless that one ended the history. -/
  lastId : Option UInt32 := none
deriving DecidableEq, Repr, Inhabited

/-- What a call to an encoder leaves: the bytes to send or why there are none. -/
structure Encoding where
  result : Except EncodeError (List UInt8)
  encoder : Encoder
  message : Message

namespace Encoder

def fresh : Encoder := {}

/-- Encodes a message from its current entries. -/
def encode (enc : Encoder) (m : Message) : Encoding :=
  let (map, start) : PresenceMap × List UInt8 :=
    if enc.lastId = some m.id then (.empty, []) else (.first, writeUInt m.id.toUInt64)
  match m.write map with
  | (.error e, m) => ⟨.error e, enc, m⟩
  | (.ok (map, bytes), m) =>
    ⟨.ok (map.write ++ start ++ bytes), { lastId := if m.resets then none else some m.id }, m⟩

end Encoder

end MarketFeed
