import MarketFeed.Message.Decode

/-!
# Decoding a stream of messages

A decoder remembers how far the message in flight has been read, so that a call that runs out of
bytes is continued by the next one. What a call has used must be dropped from the buffer.
-/

namespace MarketFeed

/-- How far the message in flight has been read. -/
inductive Stage where
  | idle
  | mapped (map : PresenceMap)
  | filling (map : PresenceMap) (slot : Nat) (place : Place)
deriving DecidableEq, Repr, Inhabited

structure Decoder where
  stage : Stage := .idle
  /-- The slot of the last message, which a message without a template id repeats. -/
  lastSlot : Option Nat := none
deriving DecidableEq, Repr, Inhabited

/-- What a call to a decoder leaves: a slot or why there is none, and the bytes to drop. -/
structure Decoding where
  result : Except DecodeFailure Nat
  decoder : Decoder
  messages : Messages
  consumed : Nat

namespace Decoder

def fresh : Decoder := {}

/-- Whether a message has been read in part. -/
def inProgress (d : Decoder) : Bool := d.stage != .idle

def lastTemplateId (d : Decoder) (ms : Messages) : Option UInt32 :=
  (d.lastSlot.bind (ms[·]?)).map (·.id)

/-- Drops the message in flight. -/
def abandon (d : Decoder) : Decoder := { d with stage := .idle }

/-- What a decoder has done before the bytes it used are counted. -/
structure Attempt where
  result : Except DecodeFailure Nat
  decoder : Decoder
  messages : Messages
  rest : List UInt8

/-- Reads the fields of the message in `slot` from `place` on. -/
def fill (d : Decoder) (ms : Messages) (map : PresenceMap) (slot : Nat) (place : Place)
    (bytes : List UInt8) : Attempt :=
  match ms[slot]? with
  | none => ⟨.error (.garbled (.unknownTemplate (.ofNat slot))), d, ms, bytes⟩
  | some m =>
    match m.read map place bytes with
    | ⟨m, .done, rest⟩ =>
      ⟨.ok slot, { lastSlot := if m.resets then none else some slot }, ms.set slot m, rest⟩
    | ⟨m, .dry place, rest⟩ =>
      ⟨.error .incomplete, { d with stage := .filling map slot place }, ms.set slot m, rest⟩
    | ⟨m, .garbled e, rest⟩ => ⟨.error (.garbled e), d, ms.set slot m, rest⟩

/-- The slot of the message that begins here: the one named, or the last one again. -/
def readSlot (d : Decoder) (ms : Messages) (map : PresenceMap) : Read Nat :=
  if map.isSet 0 then do
    let id ← readUInt
    if id.toNat < 0x100000000 then
      match ms.slot? id.toUInt32 with
      | some slot => return slot
      | none => Read.fail (.unknownTemplate id)
    else Read.fail (.unknownTemplate id)
  else
    match d.lastSlot with
    | some slot => pure slot
    | none => Read.fail .missingTemplateId

/-- Goes on once the presence map is known. -/
def afterMap (d : Decoder) (ms : Messages) (map : PresenceMap) (bytes : List UInt8) : Attempt :=
  match d.readSlot ms map bytes with
  | .done slot rest => d.fill ms map slot {} rest
  | .dry => ⟨.error .incomplete, { d with stage := .mapped map }, ms, bytes⟩
  | .garbled e rest => ⟨.error (.garbled e), d, ms, rest⟩

/-- Goes on from wherever the message in flight stands. -/
def resume (d : Decoder) (ms : Messages) (bytes : List UInt8) : Attempt :=
  match d.stage with
  | .filling map slot place => d.fill ms map slot place bytes
  | .mapped map => d.afterMap ms map bytes
  | .idle =>
    match PresenceMap.read bytes with
    | .done map rest => d.afterMap ms map rest
    | .dry => ⟨.error .incomplete, d, ms, bytes⟩
    | .garbled e rest => ⟨.error (.garbled e), d, ms, rest⟩

/--
Counts what an attempt used of a buffer of `size` bytes. A garbled message is given up, and at least
one byte of it is dropped, so that decoding can go on behind it.
-/
def Attempt.settle (a : Attempt) (size : Nat) : Decoding :=
  let used := size - a.rest.length
  match a.result with
  | .ok slot => ⟨.ok slot, a.decoder, a.messages, used⟩
  | .error .incomplete => ⟨.error .incomplete, a.decoder, a.messages, used⟩
  | .error (.garbled e) =>
    ⟨.error (.garbled e), a.decoder.abandon, a.messages, min (max used 1) size⟩

/-- Decodes the next message into its slot. -/
def decode (d : Decoder) (ms : Messages) (buffer : List UInt8) : Decoding :=
  (d.resume ms buffer).settle buffer.length

/-! ## What a call consumes -/

/-- A garbled message is given up, and some of the buffer with it. -/
theorem decode_garbled {d : Decoder} {ms : Messages} {buffer : List UInt8} {e : DecodeError}
    (h : (d.decode ms buffer).result = .error (.garbled e)) :
    (d.decode ms buffer).decoder.inProgress = false ∧
      (buffer ≠ [] → 0 < (d.decode ms buffer).consumed) := by
  unfold decode at h ⊢
  generalize d.resume ms buffer = a at h ⊢
  obtain ⟨⟨_ | _⟩ | _, _, _, _⟩ := a
  · simp [Attempt.settle] at h
  · refine ⟨rfl, fun hne => ?_⟩
    have := List.length_pos_iff.2 hne
    simp only [Attempt.settle]
    omega
  · simp [Attempt.settle] at h

/-- Without bytes and without a message in flight, nothing happens. -/
theorem decode_nil {d : Decoder} (h : d.inProgress = false) (ms : Messages) :
    d.decode ms [] = ⟨.error .incomplete, d, ms, 0⟩ := by
  obtain ⟨stage, lastSlot⟩ := d
  simp only [inProgress, bne_eq_false_iff_eq] at h
  subst h
  rfl

end Decoder

end MarketFeed
