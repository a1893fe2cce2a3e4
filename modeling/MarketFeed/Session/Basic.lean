import MarketFeed.Session.Source
import MarketFeed.Stats
import MarketFeed.Stream.Decoder
import MarketFeed.Stream.Encoder
import MarketFeed.Template

/-!
# Sessions

A session receives messages from a source and encodes messages to be sent. The two directions share
the templates and nothing else: each has its own messages, dictionaries and template id history.
-/

namespace MarketFeed

inductive SessionError where
  | io (reason : String)
  | encode (error : EncodeError)
deriving DecidableEq, Repr, Inhabited

def SessionError.message : SessionError → String
  | io reason => s!"transport I/O failed: {reason}"
  | encode error => s!"encode failed: {error.message}"

structure SessionOptions where
  /-- Whether a read that would block is tried again. -/
  blocking : Bool := false
  /-- Whether a message that ends the history resets the dictionaries. -/
  resetOnReset : Bool := true
  /-- Whether every read is a datagram, in which a message begins and ends. -/
  datagrams : Bool := false
deriving DecidableEq, Repr, Inhabited

/-- The size of the receive buffer of a stream. -/
def streamBufferBytes : Nat := 2 * maxMessageBytes

/-- The size of the largest datagram. -/
def maxDatagramBytes : Nat := 65536

structure Session where
  options : SessionOptions
  source : Source
  buffer : Buffer
  incoming : Messages
  outgoing : Messages
  decoder : Decoder := {}
  encoder : Encoder := {}
  /-- Whether the last read found the end of the source. -/
  atEnd : Bool := false
  stats : FeedStats := .empty
deriving Inhabited

namespace Session

def create (set : TemplateSet) (source : Source) (options : SessionOptions) : Session where
  options
  source
  buffer := .create (if options.datagrams then maxDatagramBytes else streamBufferBytes)
  incoming := set.messages
  outgoing := set.messages

/-- The message received last for a template. -/
def message? (s : Session) (id : UInt32) : Option Message := s.incoming.find? id

def resetIncoming (s : Session) : Session :=
  { s with incoming := s.incoming.reset, decoder := {} }

def resetOutgoing (s : Session) : Session :=
  { s with outgoing := s.outgoing.reset, encoder := {} }

/-- Both directions as they were at the start. -/
def reset (s : Session) : Session := s.resetIncoming.resetOutgoing

/-! ## Sending -/

/-- The bytes of a template's outgoing message as it stands. -/
def encode (s : Session) (id : UInt32) : Except SessionError (List UInt8) × Session :=
  match s.outgoing.slot? id with
  | none => (.error (.encode (.unknownTemplate id)), s)
  | some slot =>
    match s.outgoing[slot]? with
    | none => (.error (.encode (.unknownTemplate id)), s)
    | some m =>
      let e := s.encoder.encode m
      let s := { s with outgoing := s.outgoing.set slot e.message, encoder := e.encoder }
      match e.result with
      | .error error => (.error (.encode error), s)
      | .ok bytes =>
        (.ok bytes, if m.resets && s.options.resetOnReset then s.resetOutgoing else s)

/-! ## Receiving -/

/-- What a turn of receiving comes to: an end with an answer, or another turn. -/
inductive Turn where
  | done (answer : Except SessionError (Option Message)) (s : Session)
  | again (s : Session)

/-- Hands over the message in a slot, once the reset it may ask for is done. -/
def deliver (s : Session) (slot : Nat) : Turn :=
  let s := { s with stats := s.stats.countMessage }
  let resets := (s.incoming[slot]?).any (·.resets)
  let s := if resets && s.options.resetOnReset then s.resetIncoming else s
  .done (.ok s.incoming[slot]?) s

/-- Whether a message has begun in the current datagram. -/
def isTruncated (s : Session) : Bool := s.decoder.inProgress || !s.buffer.unread.isEmpty

/-- Goes on to the next datagram, a message cut short by the end of this one being garbled. -/
def dropDatagram (s : Session) : Session :=
  { s with
    decoder := s.decoder.abandon
    buffer := s.buffer.clear
    stats := s.stats.countGarbled }

/-- Waits for more bytes. -/
def await (s : Session) : Turn :=
  let s := { s with stats := s.stats.countPartial }
  match s.source.refill s.options.blocking s.buffer with
  | (.read n, source, buffer) =>
    .again { s with source, buffer, atEnd := false, stats := s.stats.countRead (.ofNat n) }
  | (.ended, source, buffer) => .done (.ok none) { s with source, buffer, atEnd := true }
  | (.pending, source, buffer) => .done (.ok none) { s with source, buffer }
  | (.failed reason, source, buffer) =>
    .done (.error (.io reason)) { s with source, buffer }

/-- One attempt to decode what has been read, and what its outcome asks for. -/
def turn (s : Session) : Turn :=
  let d := s.decoder.decode s.incoming s.buffer.unread
  let s := { s with
    decoder := d.decoder, incoming := d.messages, buffer := s.buffer.consume d.consumed }
  match d.result with
  | .ok slot => s.deliver slot
  | .error .incomplete =>
    if s.options.datagrams && s.isTruncated then .again s.dropDatagram else s.await
  | .error (.garbled _) =>
    if s.options.datagrams then .again s.dropDatagram
    else .again { s with stats := s.stats.countGarbled }

/-- A bound on the turns that can be made without reading. -/
def pendingWork (s : Session) : Nat :=
  s.buffer.unread.length + if s.decoder.inProgress then 1 else 0

theorem pendingWork_dropDatagram (s : Session) : s.dropDatagram.pendingWork = 0 := by
  simp [pendingWork, dropDatagram, Decoder.abandon, Decoder.inProgress]

theorem pendingWork_eq_zero_iff {s : Session} :
    s.pendingWork = 0 ↔ s.buffer.unread = [] ∧ s.decoder.inProgress = false := by
  simp only [pendingWork, Nat.add_eq_zero_iff, List.length_eq_zero_iff]
  cases s.decoder.inProgress <;> simp

/-- A bound on all turns that can be made. A byte is read, decoded and may begin a message. -/
def work (s : Session) : Nat := 3 * s.source.weight + s.pendingWork

/-- Another turn has less left to read, or less left to decode. -/
theorem turn_again {s s' : Session} (h : s.turn = .again s') : s'.work < s.work := by
  have idle (h0 : s.pendingWork = 0) : s.decoder.decode s.incoming s.buffer.unread =
      ⟨.error .incomplete, s.decoder, s.incoming, 0⟩ := by
    obtain ⟨hnil, hidle⟩ := pendingWork_eq_zero_iff.1 h0
    rw [hnil, Decoder.decode_nil hidle]
  unfold turn at h
  simp only at h
  split at h
  · simp [deliver] at h
  · split at h
    · rename_i ht
      obtain rfl := Turn.again.inj h
      simp only [work, pendingWork_dropDatagram]
      refine Nat.add_lt_add_left (Nat.pos_of_ne_zero fun h0 => ?_) _
      obtain ⟨hnil, hidle⟩ := pendingWork_eq_zero_iff.1 h0
      rw [idle h0] at ht
      simp [isTruncated, hnil, hidle] at ht
    · unfold await at h
      simp only at h
      split at h
      · rename_i hf
        obtain rfl := Turn.again.inj h
        obtain ⟨hpos, hweight, hunread⟩ := Source.refill_read hf
        simp only [Buffer.unread_consume, List.length_drop] at hunread
        simp only [work, pendingWork, hunread]
        split <;> omega
      all_goals simp at h
  · rename_i e hr
    obtain ⟨hidle, hpos⟩ := Decoder.decode_garbled hr
    have h0 : s.pendingWork ≠ 0 := fun h0 => by rw [idle h0] at hr; simp at hr
    split at h <;> obtain rfl := Turn.again.inj h <;> refine Nat.add_lt_add_left ?_ _
    · rw [pendingWork_dropDatagram]; omega
    · simp only [pendingWork, hidle, Buffer.unread_consume, List.length_drop] at h0 ⊢
      by_cases hnil : s.buffer.unread = []
      · simp only [hnil, List.length_nil] at h0 ⊢; simp; omega
      · have := hpos hnil
        have := List.length_pos_iff.2 hnil
        simp; omega

/--
The next message, `none` when none is complete and no more bytes are to be had. Garbled messages are
skipped and counted.
-/
def receive (s : Session) : Except SessionError (Option Message) × Session :=
  match _h : s.turn with
  | .done answer s => (answer, s)
  | .again s => receive s
termination_by s.work
decreasing_by exact turn_again _h

end Session

end MarketFeed
