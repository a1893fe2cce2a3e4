import MarketFeed.Proofs.Session.Reads
import MarketFeed.Proofs.Session.Reset
import MarketFeed.Proofs.Stream.Headway

/-!
# The receive buffer never grows

A session asks for more bytes when its decoder has run dry on those that it has. What is left of
them is shorter than a token, so there is room for a message behind it without more memory. This is
true of every read of every call that a history can come to (`Session.Reached.read_room`).
-/

namespace MarketFeed

/-! ## Memory -/

namespace Buffer

variable {b : Buffer} {size : Nat}

/-- The memory has this size, and all of it is free if no bytes are unread. -/
structure Sized (b : Buffer) (size : Nat) : Prop where
  fits : b.Fits
  capacity : b.capacity = size
  front : b.unread = [] → b.start = 0

theorem sized_create (h : maxMessageBytes ≤ size) : (create size).Sized size where
  fits := fits_create size
  capacity := Nat.max_eq_left h
  front _ := rfl

theorem Sized.consume (h : b.Sized size) (n : Nat) : (b.consume n).Sized size where
  fits := h.fits.consume n
  capacity := h.capacity
  front hnil := by
    rw [unread_consume] at hnil
    rw [Buffer.consume, hnil]
    rfl

theorem Sized.append (h : b.Sized size) {bytes : List UInt8} (hbytes : bytes.length ≤ b.space) :
    (b.append bytes).Sized size where
  fits := h.fits.append hbytes
  capacity := h.capacity
  front hnil := h.front (List.append_eq_nil_iff.1 hnil).1

/-- The memory is not doubled where moving the bytes to the front makes enough room. -/
theorem Sized.makeRoom (h : b.Sized size) (hroom : b.unread.length + maxMessageBytes ≤ size) :
    b.makeRoom.Sized size where
  fits := h.fits.makeRoom
  capacity := by
    have hcapacity := h.capacity
    unfold Buffer.makeRoom
    split
    · exact hcapacity
    · dsimp only
      split
      · exact hcapacity
      · next hspace =>
        simp only [space] at hspace
        omega
  front hnil := by
    rw [unread_makeRoom] at hnil
    unfold Buffer.makeRoom
    split
    · exact h.front hnil
    · dsimp only
      split <;> rfl

theorem Sized.space_of_empty (h : b.Sized size) (hnil : b.unread = []) : b.space = size := by
  rw [space, h.front hnil, hnil, h.capacity]
  rfl

end Buffer

theorem Request.sized_settled {r : Request} {size : Nat} (h : r.buffer.Sized size) :
    r.settled.2.2.Sized size := by
  unfold settled
  split
  · exact h
  · next hgot => exact h.append (length_le_of_answer hgot)
  · exact h
  · exact h
  · exact h

namespace Source

variable {blocking : Bool} {source : Source} {b : Buffer} {size : Nat}

/-- Every read is offered the room that is made for it, in a buffer that is otherwise the same. -/
theorem sized_of_mem_requests (h : b.Sized size)
    (hroom : b.unread.length + maxMessageBytes ≤ size) {r : Request}
    (hr : r ∈ source.requests blocking b) :
    r.buffer.Sized size ∧ r.buffer.unread = b.unread ∧ maxMessageBytes ≤ r.buffer.space := by
  have first := h.makeRoom hroom
  induction source generalizing b with
  | nil =>
    obtain rfl := List.mem_singleton.1 hr
    exact ⟨first, b.unread_makeRoom, h.fits.space_makeRoom⟩
  | cons event source ih =>
    rw [requests] at hr
    rcases List.mem_cons.1 hr with rfl | hr
    · exact ⟨first, b.unread_makeRoom, h.fits.space_makeRoom⟩
    · have hroom' : b.makeRoom.unread.length + maxMessageBytes ≤ size := by
        rwa [b.unread_makeRoom]
      split at hr
      · rw [← b.unread_makeRoom]
        exact ih first hroom' hr (first.makeRoom hroom')
      · cases hr

theorem sized_refill (h : b.Sized size) (hroom : b.unread.length + maxMessageBytes ≤ size) :
    (refill blocking source b).2.2.Sized size := by
  obtain ⟨r, hr, houtcome⟩ := (settles_requests blocking source b).exists_mem
  rw [houtcome]
  exact Request.sized_settled (sized_of_mem_requests h hroom hr).1

end Source

/-! ## Sessions -/

namespace SessionOptions

/-- The size of the memory that a session begins with. -/
def bufferBytes (options : SessionOptions) : Nat :=
  if options.datagrams then maxDatagramBytes else streamBufferBytes

/-- There is room for a message behind all that can be left of a token. -/
theorem room_le_bufferBytes (options : SessionOptions) :
    maxTokenBytes + maxMessageBytes ≤ options.bufferBytes := by
  unfold bufferBytes
  split <;> decide

end SessionOptions

namespace Session

variable {set : TemplateSet} {s s' : Session}

/-- The decoder and the slots are where calls in order lead, and the memory has its first size. -/
structure Sized (set : TemplateSet) (s : Session) : Prop where
  orderly : Decoder.Orderly set s.decoder s.incoming
  buffer : s.buffer.Sized s.options.bufferBytes

theorem sized_create (set : TemplateSet) (source : Source) (options : SessionOptions) :
    (create set source options).Sized set where
  orderly := .fresh
  buffer := Buffer.sized_create
    (Nat.le_trans (Nat.le_add_left _ _) options.room_le_bufferBytes)

/-! ### Turn by turn -/

theorem Sized.decoded (h : s.Sized set) : s.decoded.Sized set where
  orderly := h.orderly.decode _
  buffer := h.buffer.consume _

theorem Sized.dropDatagram (h : s.Sized set) : s.dropDatagram.Sized set where
  orderly := h.orderly.abandon
  buffer := h.buffer.consume _

theorem Sized.resetIncoming (h : s.Sized set) : s.resetIncoming.Sized set where
  orderly := h.orderly.reset.resetAll rfl
  buffer := h.buffer

/-- What is left when the decoder has run dry is shorter than a token. -/
theorem Sized.room (h : s.Sized set) (hdry : s.attempt.result = .error .incomplete) :
    s.decoded.buffer.unread.length < maxTokenBytes :=
  (Decoder.decode_upheld h.orderly.visited.formed s.decoder s.buffer.unread).short hdry

theorem Sized.await (h : s.Sized set) (hroom : s.buffer.unread.length < maxTokenBytes) :
    s.await.session.Sized set := by
  have hle := s.options.room_le_bufferBytes
  have hbuffer : (s.source.refill s.options.blocking s.buffer).2.2.Sized s.options.bufferBytes :=
    Source.sized_refill h.buffer (by omega)
  unfold Session.await
  dsimp only
  split <;> next hrefill => exact ⟨h.orderly, by rwa [hrefill] at hbuffer⟩

theorem Sized.deliver (h : s.Sized set) (slot : Nat) : (s.deliver slot).session.Sized set := by
  unfold Session.deliver
  dsimp only
  split
  · exact ⟨h.resetIncoming.orderly, h.buffer⟩
  · exact ⟨h.orderly, h.buffer⟩

theorem Sized.turn (h : s.Sized set) : s.turn.session.Sized set := by
  have hroom := h.room
  rw [turn_eq]
  split
  · next slot _ => exact h.decoded.deliver slot
  · next hdry =>
    split
    · exact h.decoded.dropDatagram
    · exact h.decoded.await (hroom hdry)
  · split
    · exact h.decoded.dropDatagram
    · exact ⟨h.decoded.orderly, h.decoded.buffer⟩

/-! ### Call by call -/

/-- The memory of a read has its first size, and little is in front of the room, or nothing. -/
structure Provides (options : SessionOptions) (r : Request) : Prop where
  buffer : r.buffer.Sized options.bufferBytes
  short : r.buffer.unread.length < maxTokenBytes
  room : maxMessageBytes ≤ r.buffer.space
  whole : options.datagrams = true → r.buffer.unread = []

theorem Sized.provides_turn (h : s.Sized set) {r : Request} (hr : r ∈ s.turnRequests) :
    Provides s.options r := by
  have hroom := h.room
  have hle := s.options.room_le_bufferBytes
  unfold turnRequests at hr
  split at hr
  · next hdry =>
    split at hr
    · cases hr
    · next hcut =>
      obtain ⟨hbuffer, hunread, hspace⟩ := Source.sized_of_mem_requests h.decoded.buffer
        (by have := hroom hdry; exact Nat.le_trans (by omega) hle) hr
      refine ⟨hbuffer, hunread ▸ hroom hdry, hspace, fun hmode => ?_⟩
      -- The datagram was not cut short, so all of it has been decoded.
      rw [hmode, Bool.true_and, isTruncated, Bool.not_eq_true, Bool.or_eq_false_iff] at hcut
      rw [hunread]
      simpa using hcut.2
  · cases hr
  · cases hr

theorem Sized.receive (h : s.Sized set) :
    s.receive.2.Sized set ∧ s.receive.2.options = s.options ∧
      ∀ r ∈ s.requests, Provides s.options r := by
  induction s using receive.induct with
  | case1 s answer s' ht =>
    have hsized := h.turn
    have hoptions := s.options_turn
    rw [ht] at hsized hoptions
    rw [receive_of_done ht, requests_of_done ht]
    exact ⟨hsized, hoptions, fun r hr => h.provides_turn hr⟩
  | case2 s s' ht ih =>
    have hsized := h.turn
    have hoptions := s.options_turn
    rw [ht] at hsized hoptions
    rw [receive_of_again ht, requests_of_again ht]
    obtain ⟨hsized', hoptions', hrequests⟩ := ih hsized
    refine ⟨hsized', hoptions'.trans hoptions, fun r hr => ?_⟩
    rcases List.mem_append.1 hr with hr | hr
    · exact h.provides_turn hr
    · exact hoptions ▸ hrequests r hr

theorem Reached.sized (h : Reached set s) : s.Sized set := by
  induction h with
  | create source options => exact sized_create set source options
  | bring _ source ih => exact ⟨ih.orderly, ih.buffer⟩
  | receive _ ih => exact ih.receive.1
  | reset _ ih => exact ⟨ih.resetIncoming.orderly, ih.buffer⟩
  | fill _ outgoing ih => exact ⟨ih.orderly, ih.buffer⟩
  | @encode s _ id ih =>
    obtain ⟨outgoing, encoder, heq⟩ := s.encode_eq id
    rw [heq]
    exact ⟨ih.orderly, ih.buffer⟩

/--
Whatever has been received and sent before, the buffer has the size that it was created with, and
keeps it for every read by which the next call takes anything from the source.
-/
theorem Reached.read_room (h : Reached set s) :
    s.buffer.capacity = (if s.options.datagrams then 65536 else 4096) ∧
    Source.Leads s.source s.requests s.receive.2.source ∧ ∀ r ∈ s.requests,
      r.buffer.capacity = (if s.options.datagrams then 65536 else 4096) ∧
      r.buffer.unread.length ≤ 1033 ∧ 2048 ≤ r.buffer.space ∧
      (s.options.datagrams = true → r.buffer.unread = [] ∧ r.buffer.space = 65536) ∧
      (r.answer = .bytes [] → r.source = [] ∨ ∃ later, r.source = .bytes [] :: later) := by
  refine ⟨h.sized.buffer.capacity, s.leads_receive, fun r hr => ?_⟩
  obtain ⟨hbuffer, hshort, hroom, hwhole⟩ := h.sized.receive.2.2 r hr
  refine ⟨hbuffer.capacity, Nat.le_of_lt_succ hshort, hroom, fun hmode => ⟨hwhole hmode, ?_⟩,
    fun hnil => Request.source_of_answer_nil (Nat.lt_of_lt_of_le (by decide) hroom) hnil⟩
  rw [hbuffer.space_of_empty (hwhole hmode), SessionOptions.bufferBytes, hmode]
  rfl

def blobs : TemplateSet := ⟨[{ id := 1, name := "Blob", fields := [
  .scalar { name := "Data", id := 96, kind := .bytes }] }], rfl⟩

/-- A blob of the largest size, with its length in as many bytes as may be, but for the last byte. -/
def unfinishedBlob : Source := [
  .bytes ([0xC0, 0x81, 0, 0, 0, 0, 0, 0, 0, 0, 8, 0x80] ++ List.replicate 1023 0), .wouldBlock]

/-- No more than that can be left unread. -/
theorem Reached.read_room_unfinishedBlob :
    let before := Session.create blobs unfinishedBlob {}
    let s := { before.receive.2 with source := [.interrupted, .bytes []] }
    Reached blobs s ∧ s.buffer.capacity = 4096 ∧
      s.requests.map (fun r => (r.source, r.buffer.unread.length, r.buffer.space)) =
        [([.interrupted, .bytes []], 1033, 3061), ([.bytes []], 1033, 3061)] ∧
      ∀ r ∈ s.requests, r.buffer.unread.length ≤ 1033 ∧ 2048 ≤ r.buffer.space ∧
        (r.answer = .bytes [] → r.source = [] ∨ ∃ later, r.source = .bytes [] :: later) := by
  intro before s
  have h : Reached blobs s := .bring (.receive (.create _ _)) _
  have hmode : s.options.datagrams = false := by decide +kernel
  obtain ⟨hcapacity, -, hrequests⟩ := h.read_room
  rw [hmode] at hcapacity
  refine ⟨h, hcapacity, by decide +kernel, fun r hr => ?_⟩
  obtain ⟨-, hunread, hspace, -, hnil⟩ := hrequests r hr
  exact ⟨hunread, hspace, hnil⟩

end Session

end MarketFeed
