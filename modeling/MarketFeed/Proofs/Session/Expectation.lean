import MarketFeed.Proofs.Session.Forecast
import MarketFeed.Proofs.Session.Receive

/-!
# What a session has ahead of it

A session has its forecast ahead of it, whatever its last turn has made of the message in flight
(`Session.Expects`). Every turn takes one report from the front of it or none, and so every call
takes those that it skips and the one that it answers with (`Expects.receive`): sessions that expect
the same cannot be told apart.
-/

namespace MarketFeed

namespace Session

/--
Where a session stands between two turns: it has decoded what it could of the bytes since the last
result, which left this decoder and these messages. A datagram is not decoded before it has arrived.
-/
structure Stands (s : Session) (d : Decoder) (ms : Messages) (pending : List UInt8) : Prop where
  idle : d.inProgress = false
  fits : s.buffer.Fits
  begun : ∃ before more, pending = before ++ more ∧
    (d.decode ms before).result = .error .incomplete ∧
    s.decoder = (d.decode ms before).decoder ∧ s.incoming = (d.decode ms before).messages ∧
    s.buffer.unread = before.drop (d.decode ms before).consumed ++ more
  whole : s.options.datagrams = true → s.decoder = d ∧ s.incoming = ms ∧ s.buffer.unread = pending
  room : s.options.datagrams = true → s.buffer.capacity = maxDatagramBytes ∧
    (s.buffer.unread = [] → s.buffer.start = 0)

variable {s s' : Session} {d : Decoder} {ms : Messages} {pending : List UInt8}

theorem stands_of_idle (hidle : s.decoder.inProgress = false) (hfits : s.buffer.Fits)
    (hroom : s.options.datagrams = true → s.buffer.capacity = maxDatagramBytes ∧
      (s.buffer.unread = [] → s.buffer.start = 0)) :
    s.Stands s.decoder s.incoming s.buffer.unread where
  idle := hidle
  fits := hfits
  begun := by
    refine ⟨[], s.buffer.unread, rfl, ?_⟩
    rw [Decoder.decode_nil hidle]
    exact ⟨rfl, rfl, rfl, rfl⟩
  whole _ := ⟨rfl, rfl, rfl⟩
  room := hroom

/-- The call to the decoder that the next turn makes. -/
def attempt (s : Session) : Decoding := s.decoder.decode s.incoming s.buffer.unread

/-- The session behind that call. -/
def decoded (s : Session) : Session :=
  { s with
    decoder := s.attempt.decoder
    incoming := s.attempt.messages
    buffer := s.buffer.consume s.attempt.consumed }

theorem turn_eq (s : Session) :
    s.turn = match s.attempt.result with
      | .ok slot => s.decoded.deliver slot
      | .error .incomplete =>
        if s.options.datagrams && s.decoded.isTruncated then .again s.decoded.dropDatagram
        else s.decoded.await
      | .error (.garbled _) =>
        if s.options.datagrams then .again s.decoded.dropDatagram
        else .again { s.decoded with stats := s.stats.countGarbled } := rfl

/-- The next call comes to what one would come to that begins with the message. -/
theorem Stands.attempt (h : s.Stands d ms pending) :
    ∃ used, d.decode ms pending = { s.attempt with consumed := used } ∧
      pending.drop used = s.decoded.buffer.unread := by
  obtain ⟨before, more, rfl, hdry, hdecoder, hincoming, hunread⟩ := h.begun
  have hcall := (Decoder.underway_of_idle h.idle).decode_append_of_incomplete hdry more
  rw [← hdecoder, ← hincoming, ← hunread] at hcall
  refine ⟨_, hcall, ?_⟩
  rw [← List.drop_drop, List.drop_append_of_le_length (Decoder.consumed_le d ms before), ← hunread]
  rfl

end Session

/-! ## Reads -/

/-- How a read that brings no bytes ends a call. -/
def Refill.answer? : Refill → Option (Except SessionError (Option Message))
  | .read _ => none
  | .ended | .pending => some (.ok none)
  | .failed reason => some (.error (.io reason))

namespace Source

variable {options : SessionOptions}

theorem arrivals_cons (event : ReadEvent) (source : Source) :
    arrivals options (event :: source) = event.arrivals options ++ source.arrivals options := by
  simp [arrivals]

theorem arrivals_datagram (hdatagrams : options.datagrams = true) {chunk : List UInt8}
    (hchunk : chunk ≠ []) (source : Source) :
    arrivals options (.bytes chunk :: source) =
      .bytes (chunk.take maxDatagramBytes) ::
        arrivals options (if (chunk.drop maxDatagramBytes).isEmpty then source
          else .bytes (chunk.drop maxDatagramBytes) :: source) := by
  have hnonempty : chunk.isEmpty = false := by simpa using hchunk
  rw [arrivals_cons, ReadEvent.arrivals, if_neg (by simp [hnonempty]), if_pos hdatagrams]
  rw [pieces]
  by_cases hfits : chunk.length ≤ maxDatagramBytes
  · rw [if_pos (.inl hfits), if_pos (by simpa using hfits), List.take_of_length_le hfits]
    rfl
  · have hleft : (chunk.drop maxDatagramBytes).isEmpty = false := by simpa using hfits
    rw [if_neg (by simpa [maxDatagramBytes] using hfits), hleft]
    simp only [Bool.false_eq_true, if_false]
    rw [arrivals_cons, ReadEvent.arrivals, if_neg (by simp [hleft]), if_pos hdatagrams]
    rfl

theorem arrivals_stream (hstream : options.datagrams = false) {chunk : List UInt8}
    (hchunk : chunk ≠ []) (source : Source) :
    arrivals options (.bytes chunk :: source) = .bytes chunk :: arrivals options source := by
  have hnonempty : chunk.isEmpty = false := by simpa using hchunk
  rw [arrivals_cons, ReadEvent.arrivals, if_neg (by simp [hnonempty]), if_neg (by simp [hstream])]
  rfl

end Source

namespace Session

variable {options : SessionOptions} {d : Decoder} {ms : Messages} {pending : List UInt8}

/-- Room for the whole of a datagram, at the front of the memory. -/
structure Cleared (b : Buffer) : Prop where
  unread : b.unread = []
  start : b.start = 0
  capacity : b.capacity = maxDatagramBytes

theorem Cleared.space {b : Buffer} (h : Cleared b) : b.space = maxDatagramBytes := by
  simp [Buffer.space, h.unread, h.start, h.capacity]

theorem Cleared.makeRoom {b : Buffer} (h : Cleared b) : Cleared b.makeRoom := by
  rwa [Buffer.makeRoom, if_pos (by rw [h.space]; decide)]

/-- Bytes that are read move on from the source to those that are pending. -/
theorem forecast_take (hd : d.inProgress = false)
    (hdry : (d.decode ms pending).result = .error .incomplete)
    (hwhole : options.datagrams = true → pending = []) {chunk : List UInt8} (hchunk : chunk ≠ [])
    {n : Nat} (hn : options.datagrams = true → n = maxDatagramBytes) (source : Source) :
    d.forecast options ms pending (Source.arrivals options (.bytes chunk :: source)) =
      d.forecast options ms (pending ++ chunk.take n)
        (Source.arrivals options (if (chunk.drop n).isEmpty then source
          else .bytes (chunk.drop n) :: source)) := by
  cases hmode : options.datagrams with
  | true =>
    rw [hn hmode, Source.arrivals_datagram hmode hchunk, Decoder.forecast_await hdry hwhole]
  | false =>
    have hu : d.Underway ms := Decoder.underway_of_idle hd
    rw [Source.arrivals_stream hmode hchunk, Decoder.forecast_bytes hmode hu]
    split
    · next hempty =>
      rw [List.take_of_length_le (by simpa using hempty)]
    · next hleft =>
      rw [Source.arrivals_stream hmode (by simpa using hleft), Decoder.forecast_bytes hmode hu,
        List.append_assoc, List.take_append_drop]

/-- What a refill comes to: it ends the call, or what it brings moves on to the pending bytes. -/
structure Foretold (options : SessionOptions) (d : Decoder) (ms : Messages) (pending : List UInt8)
    (source : Source) (b : Buffer) (after : Refill × Source × Buffer) : Prop where
  front : options.datagrams = true → after.2.2.start = 0 ∧ after.2.2.capacity = maxDatagramBytes
  outcome : match after.1.answer? with
    | some answer => after.2.2.unread = b.unread ∧
        Report.call (d.forecast options ms pending (source.arrivals options)) =
          (answer, 0, d.forecast options ms pending (after.2.1.arrivals options))
    | none => ∃ got, after.2.2.unread = b.unread ++ got ∧
        d.forecast options ms pending (source.arrivals options) =
          d.forecast options ms (pending ++ got) (after.2.1.arrivals options)

namespace Foretold

variable {source later : Source} {b : Buffer}

/-- A read that brings nothing leaves the buffer with room made. -/
theorem ended {r : Refill} {answer : Except SessionError (Option Message)}
    (hroom : options.datagrams = true → Cleared b) (hanswer : r.answer? = some answer)
    (hcall : Report.call (d.forecast options ms pending (source.arrivals options)) =
      (answer, 0, d.forecast options ms pending (later.arrivals options))) :
    Foretold options d ms pending source b (r, later, b.makeRoom) where
  front hmode := ⟨(hroom hmode).makeRoom.start, (hroom hmode).makeRoom.capacity⟩
  outcome := by
    rw [hanswer]
    exact ⟨Buffer.unread_makeRoom b, hcall⟩

/-- A read that is made again is as if it had not been made. -/
theorem again {event : ReadEvent} {after : Refill × Source × Buffer}
    (h : Foretold options d ms pending source b.makeRoom after)
    (hevent : event.arrivals options = []) :
    Foretold options d ms pending (event :: source) b after where
  front := h.front
  outcome := by
    have houtcome := h.outcome
    rw [Buffer.unread_makeRoom] at houtcome
    rwa [Source.arrivals_cons, hevent, List.nil_append]

theorem read (hd : d.inProgress = false)
    (hdry : (d.decode ms pending).result = .error .incomplete)
    (hwhole : options.datagrams = true → pending = [])
    (hroom : options.datagrams = true → Cleared b) {chunk : List UInt8} (hchunk : chunk ≠ []) :
    let left := chunk.drop b.makeRoom.space
    let got := chunk.take b.makeRoom.space
    Foretold options d ms pending (.bytes chunk :: source) b
      (.read got.length, if left.isEmpty then source else .bytes left :: source,
        b.makeRoom.append got) where
  front hmode := ⟨(hroom hmode).makeRoom.start, (hroom hmode).makeRoom.capacity⟩
  outcome := by
    refine ⟨chunk.take b.makeRoom.space, by simp [Buffer.append], ?_⟩
    exact forecast_take hd hdry hwhole hchunk (fun hmode => (hroom hmode).makeRoom.space) source

end Foretold

/-- There is room, so a read that brings nothing found nothing in the chunk. -/
theorem eq_nil_of_take_room {b : Buffer} (hb : b.Fits) {chunk : List UInt8}
    (h : chunk.take b.makeRoom.space = []) : chunk = [] := by
  have hspace := hb.space_makeRoom
  rcases List.take_eq_nil_iff.1 h with hzero | hempty
  · rw [hzero] at hspace
    exact absurd hspace (by decide)
  · exact hempty

theorem foretold_refill (hd : d.inProgress = false)
    (hdry : (d.decode ms pending).result = .error .incomplete)
    (hwhole : options.datagrams = true → pending = []) (source : Source) {b : Buffer}
    (hb : b.Fits) (hroom : options.datagrams = true → Cleared b) :
    Foretold options d ms pending source b (source.refill options.blocking b) := by
  have hawait (arrivals : List Arrival) :=
    @Decoder.forecast_await options d ms pending arrivals hdry hwhole
  induction source generalizing b with
  | nil =>
    refine .ended hroom rfl ?_
    rw [show Source.arrivals options [] = [] from rfl, hawait]
    rfl
  | cons event source ih =>
    have hagain := ih hb.makeRoom fun hmode => (hroom hmode).makeRoom
    cases event with
    | interrupted => exact hagain.again rfl
    | wouldBlock =>
      rw [Source.refill]
      split
      · next hblocking => exact hagain.again (by rw [ReadEvent.arrivals, if_pos hblocking])
      · next hblocking =>
        refine .ended hroom rfl ?_
        rw [Source.arrivals_cons, ReadEvent.arrivals, if_neg hblocking, List.singleton_append, hawait]
        rfl
    | failed reason =>
      refine .ended hroom rfl ?_
      rw [Source.arrivals_cons, ReadEvent.arrivals, List.singleton_append, hawait]
      rfl
    | bytes chunk =>
      simp only [Source.refill]
      split
      · next hnil =>
        obtain rfl := eq_nil_of_take_room hb hnil
        rw [List.drop_nil]
        refine .ended hroom rfl ?_
        rw [Source.arrivals_cons, ReadEvent.arrivals, if_pos List.isEmpty_nil,
          List.singleton_append, hawait]
        rfl
      · next hne =>
        exact .read hd hdry hwhole hroom fun hnil => hne (by rw [hnil, List.take_nil])

/-! ## Turn by turn -/

/-- These reports are what the session has ahead of it. -/
def Expects (s : Session) (reports : List Report) : Prop :=
  ∃ d ms pending, s.Stands d ms pending ∧
    reports = d.forecast s.options ms pending (s.source.arrivals s.options)

theorem expects_of_idle {s : Session} (hidle : s.decoder.inProgress = false)
    (hfits : s.buffer.Fits)
    (hroom : s.options.datagrams = true → s.buffer.capacity = maxDatagramBytes ∧
      (s.buffer.unread = [] → s.buffer.start = 0)) :
    s.Expects (s.decoder.forecast s.options s.incoming s.buffer.unread
      (s.source.arrivals s.options)) :=
  ⟨_, _, _, stands_of_idle hidle hfits hroom, rfl⟩

variable {s s' : Session} {reports : List Report}

/-- What a turn makes of what the session expects. -/
inductive Advances (s : Session) (reports : List Report) : Turn → Prop where
  | waits {s' : Session} : s'.Expects reports → s'.options = s.options →
      s'.stats.garbled = s.stats.garbled → Advances s reports (.again s')
  | skips {s' : Session} {why : DecodeFailure} {later : List Report} :
      reports = .garbled why :: later → s'.Expects later → s'.options = s.options →
      s'.stats.garbled = s.stats.garbled + 1 → Advances s reports (.again s')
  | ends {s' : Session} {answer : Except SessionError (Option Message)} {later : List Report} :
      Report.call reports = (answer, 0, later) → s'.Expects later → s'.options = s.options →
      s'.stats.garbled = s.stats.garbled → Advances s reports (.done answer s')

/-- A message that has been delivered is handed over once the reset it asks for is done. -/
theorem deliver_eq {slot : Nat} (hresult : s.attempt.result = .ok slot) :
    s.decoded.deliver slot =
      .done (.ok (s.attempt.nextMessages s.options.resetOnReset)[slot]?)
        (s.after s.attempt s.stats.countMessage) := by
  have hafter : s.after s.attempt s.stats.countMessage =
      let t : Session := { s.decoded with stats := s.stats.countMessage }
      if (s.attempt.messages[slot]?).any (·.resets) && s.options.resetOnReset then t.resetIncoming
      else t := by
    simp only [after, Decoding.nextDecoder, Decoding.nextMessages, Decoding.endsHistory, hresult,
      Bool.and_comm s.options.resetOnReset]
    split <;> rfl
  change _ = Turn.done (.ok (s.after s.attempt s.stats.countMessage).incoming[slot]?) _
  rw [hafter]
  rfl

theorem Stands.expects_after (h : s.Stands d ms pending)
    (hresult : s.attempt.result ≠ .error .incomplete) (stats : FeedStats) :
    (s.after s.attempt stats).Expects
      ((s.attempt.nextDecoder s.options.resetOnReset).forecast s.options
        (s.attempt.nextMessages s.options.resetOnReset) s.decoded.buffer.unread
        (s.source.arrivals s.options)) := by
  have hidle := Decoder.inProgress_nextDecoder s.options.resetOnReset hresult
  refine expects_of_idle hidle (h.fits.consume _) fun hmode => ⟨(h.room hmode).1, fun hunread => ?_⟩
  rw [after, Buffer.unread_consume] at hunread
  rw [after, Buffer.consume, hunread]
  rfl

theorem Stands.expects_dropDatagram (h : s.Stands d ms pending) :
    s.decoded.dropDatagram.Expects (s.attempt.decoder.abandon.forecast s.options s.attempt.messages
      [] (s.source.arrivals s.options)) := by
  have hexpects : s.decoded.dropDatagram.Expects _ :=
    expects_of_idle rfl ((h.fits.consume _).consume _) fun hmode =>
      ⟨(h.room hmode).1, fun _ => by simp [dropDatagram, Buffer.clear, Buffer.consume]⟩
  rwa [dropDatagram, Buffer.unread_clear] at hexpects

theorem Stands.forecast_result (h : s.Stands d ms pending) {report : Report}
    (hreport : s.attempt.report? s.options.resetOnReset = some report) (arrivals : List Arrival) :
    d.forecast s.options ms pending arrivals =
      report ::
        (s.attempt.nextDecoder s.options.resetOnReset).forecast s.options
          (s.attempt.nextMessages s.options.resetOnReset)
          (if s.options.datagrams && s.attempt.isGarbled then [] else s.decoded.buffer.unread)
          arrivals := by
  obtain ⟨used, hcall, hrest⟩ := h.attempt
  have hresult : (d.decode ms pending).report? s.options.resetOnReset = some report := by
    rw [hcall]
    exact hreport
  rw [Decoder.forecast_result hresult, ← hrest, hcall]
  rfl

theorem Stands.advances_ok (h : s.Stands d ms pending) {slot : Nat}
    (hresult : s.attempt.result = .ok slot) :
    Advances s (d.forecast s.options ms pending (s.source.arrivals s.options)) s.turn := by
  have hreport : s.attempt.report? s.options.resetOnReset =
      some (((s.attempt.nextMessages s.options.resetOnReset)[slot]?).elim .nothing .message) := by
    simp only [Decoding.report?, hresult]
  have hgarbled : s.attempt.isGarbled = false := by simp [Decoding.isGarbled, hresult]
  rw [h.forecast_result hreport, hgarbled, Bool.and_false, turn_eq, hresult]
  dsimp only
  rw [deliver_eq hresult]
  refine .ends ?_ (h.expects_after (by simp [hresult]) _) rfl rfl
  cases (s.attempt.nextMessages s.options.resetOnReset)[slot]? <;> rfl

theorem Stands.advances_garbled (h : s.Stands d ms pending) {e : DecodeError}
    (hresult : s.attempt.result = .error (.garbled e)) :
    Advances s (d.forecast s.options ms pending (s.source.arrivals s.options)) s.turn := by
  have hreport : s.attempt.report? s.options.resetOnReset = some (.garbled (.garbled e)) := by
    simp only [Decoding.report?, hresult]
  have hgarbled : s.attempt.isGarbled = true := by simp [Decoding.isGarbled, hresult]
  obtain ⟨hdecoder, hmessages⟩ :=
    Decoding.next_of_error s.options.resetOnReset hresult
  have hexpects := h.expects_after (by simp [hresult]) s.stats.countGarbled
  rw [h.forecast_result hreport, hgarbled, Bool.and_true, turn_eq, hresult]
  rw [after, hdecoder, hmessages] at hexpects
  rw [hdecoder, hmessages]
  dsimp only
  split
  · have habandon : s.attempt.decoder.abandon = s.attempt.decoder :=
      Decoder.abandon_of_idle (Decoder.decode_garbled hresult).1
    exact .skips rfl (habandon ▸ h.expects_dropDatagram) rfl rfl
  · exact .skips rfl hexpects rfl rfl

/-- Whether a message has begun in a datagram is told by the bytes that are pending. -/
theorem Stands.isTruncated_iff (h : s.Stands d ms pending) (hmode : s.options.datagrams = true)
    (hdry : s.attempt.result = .error .incomplete) :
    s.decoded.isTruncated = true ↔ pending ≠ [] := by
  obtain ⟨hdecoder, hincoming, hpending⟩ := h.whole hmode
  have hattempt : s.attempt = d.decode ms pending := by
    rw [Session.attempt, hdecoder, hincoming, hpending]
  simp only [isTruncated, decoded, Buffer.unread_consume, hpending, hattempt] at hdry ⊢
  constructor
  · rintro htruncated rfl
    rw [Decoder.decode_nil h.idle] at htruncated
    simp [h.idle] at htruncated
  · intro hne
    cases hbegun : (d.decode ms pending).decoder.inProgress with
    | true => rfl
    | false =>
      rw [Decoder.consumed_eq_zero h.idle hdry hbegun]
      simpa using hne

/-- A session that waits is still expecting the rest of the message in flight. -/
theorem Stands.wait (h : s.Stands d ms pending) (hdry : s.attempt.result = .error .incomplete)
    (hwhole : s.options.datagrams = true → pending = []) {source : Source} {buffer : Buffer}
    {got : List UInt8} (hfits : buffer.Fits)
    (hunread : buffer.unread = s.decoded.buffer.unread ++ got)
    (hroom : s.options.datagrams = true → buffer.start = 0 ∧ buffer.capacity = maxDatagramBytes)
    (atEnd : Bool) (stats : FeedStats) :
    Stands { s.decoded with source, buffer, atEnd, stats } d ms (pending ++ got) := by
  obtain ⟨used, hcall, hrest⟩ := h.attempt
  refine ⟨h.idle, hfits, ⟨pending, got, rfl, ?_⟩, fun hmode => ?_, fun hmode => ?_⟩
  · rw [hcall]
    exact ⟨hdry, rfl, rfl, by rw [hrest]; exact hunread⟩
  · obtain ⟨hdecoder, hincoming, hpending⟩ := h.whole hmode
    obtain rfl := hwhole hmode
    have hattempt : s.attempt = ⟨.error .incomplete, d, ms, 0⟩ := by
      rw [Session.attempt, hdecoder, hincoming, hpending, Decoder.decode_nil h.idle]
    rw [decoded, hattempt, Buffer.unread_consume, hpending] at hunread
    simp only [decoded, hattempt]
    exact ⟨trivial, trivial, hunread⟩
  · exact ⟨(hroom hmode).2, fun _ => (hroom hmode).1⟩

theorem Stands.advances_incomplete (h : s.Stands d ms pending)
    (hdry : s.attempt.result = .error .incomplete) :
    Advances s (d.forecast s.options ms pending (s.source.arrivals s.options)) s.turn := by
  obtain ⟨used, hcall, hrest⟩ := h.attempt
  have hpending : (d.decode ms pending).result = .error .incomplete := by
    rw [hcall]
    exact hdry
  rw [turn_eq, hdry]
  dsimp only
  split
  · next hcut =>
    rw [Bool.and_eq_true] at hcut
    have hne := (h.isTruncated_iff hcut.1 hdry).1 hcut.2
    rw [Decoder.forecast_cut hpending hcut.1 hne, hcall]
    exact .skips rfl h.expects_dropDatagram rfl rfl
  · next hcut =>
    have hwhole (hmode : s.options.datagrams = true) : pending = [] := by
      by_cases hne : pending = []
      · exact hne
      · exact absurd (by rw [hmode, (h.isTruncated_iff hmode hdry).2 hne]; rfl) hcut
    -- Nothing is pending in a datagram, so there is room for the whole of the next one.
    have hcleared (hmode : s.options.datagrams = true) : Cleared s.decoded.buffer := by
      have hunread : s.decoded.buffer.unread = [] := by rw [← hrest, hwhole hmode, List.drop_nil]
      refine ⟨hunread, ?_, (h.room hmode).1⟩
      rw [decoded, Buffer.unread_consume] at hunread
      simp [decoded, Buffer.consume, hunread]
    have hforetold : Foretold s.options d ms pending s.source s.decoded.buffer _ :=
      foretold_refill h.idle hpending hwhole s.source (h.fits.consume _) hcleared
    generalize hrefill : s.source.refill s.options.blocking s.decoded.buffer = refill at hforetold
    obtain ⟨r, source, buffer⟩ := refill
    obtain ⟨hroom, hforecast⟩ := hforetold
    have hfits := (Source.refill_content hrefill (h.fits.consume _)).1
    have hidle (hunread : buffer.unread = s.decoded.buffer.unread) (atEnd : Bool)
        (stats : FeedStats) :
        Stands { s.decoded with source, buffer, atEnd, stats } d ms pending := by
      rw [← List.append_nil pending]
      exact h.wait hdry hwhole hfits (by rw [hunread, List.append_nil]) hroom atEnd stats
    unfold await
    simp only [show s.decoded.source = s.source from rfl,
      show s.decoded.options = s.options from rfl, hrefill]
    cases r with
    | read n =>
      obtain ⟨got, hunread, hforecast⟩ := hforecast
      exact .waits ⟨d, ms, pending ++ got, h.wait hdry hwhole hfits hunread hroom _ _, hforecast⟩
        rfl rfl
    | ended =>
      exact .ends hforecast.2 ⟨d, ms, pending, hidle hforecast.1 _ _, rfl⟩ rfl rfl
    | pending =>
      exact .ends hforecast.2 ⟨d, ms, pending, hidle hforecast.1 _ _, rfl⟩ rfl rfl
    | failed reason =>
      exact .ends hforecast.2 ⟨d, ms, pending, hidle hforecast.1 _ _, rfl⟩ rfl rfl

theorem Expects.advances (h : s.Expects reports) : Advances s reports s.turn := by
  obtain ⟨d, ms, pending, hs, rfl⟩ := h
  cases hresult : s.attempt.result with
  | ok slot => exact hs.advances_ok hresult
  | error failure =>
    cases failure with
    | incomplete => exact hs.advances_incomplete hresult
    | garbled e => exact hs.advances_garbled hresult

/-! ## Call by call -/

theorem receive_of_done {answer : Except SessionError (Option Message)}
    (h : s.turn = .done answer s') : s.receive = (answer, s') := by
  rw [receive]
  split
  · next h' =>
    obtain ⟨rfl, rfl⟩ := Turn.done.inj (h.symm.trans h')
    rfl
  · next h' => cases h.symm.trans h'

theorem receive_of_again (h : s.turn = .again s') : s.receive = s'.receive := by
  rw [receive]
  split
  · next h' => cases h.symm.trans h'
  · next h' =>
    obtain rfl := Turn.again.inj (h.symm.trans h')
    rfl

/-- A call answers with the first report that is not of a garbled message, and counts those. -/
theorem Expects.receive (h : s.Expects reports) :
    s.receive.1 = (Report.call reports).1 ∧ s.receive.2.Expects (Report.call reports).2.2 ∧
      s.receive.2.options = s.options ∧
      s.receive.2.stats.garbled = s.stats.garbled + .ofNat (Report.call reports).2.1 := by
  induction s using receive.induct generalizing reports with
  | case1 s answer s' ht =>
    have hadvances := h.advances
    rw [ht] at hadvances
    cases hadvances with
    | ends hcall hexpects hoptions hgarbled =>
      rw [receive_of_done ht, hcall]
      exact ⟨rfl, hexpects, hoptions, by rw [hgarbled]; exact (UInt64.add_zero _).symm⟩
  | case2 s s' ht ih =>
    have hadvances := h.advances
    rw [ht] at hadvances
    rw [receive_of_again ht]
    cases hadvances with
    | waits hexpects hoptions hgarbled =>
      rw [← hoptions, ← hgarbled]
      exact ih hexpects
    | @skips _ why later hreports hexpects hoptions hgarbled =>
      obtain ⟨hanswer, hlater, hoptions', hgarbled'⟩ := ih hexpects
      subst hreports
      refine ⟨hanswer, hlater, hoptions'.trans hoptions, ?_⟩
      rw [hgarbled', hgarbled]
      change _ = s.stats.garbled + .ofNat ((Report.call later).2.1 + 1)
      rw [UInt64.ofNat_add, UInt64.add_assoc, UInt64.add_comm 1]
      rfl

end Session

/-- The answers of so many calls, the garbled messages that they skip, and what is left ahead. -/
def Report.calls :
    Nat → List Report → List (Except SessionError (Option Message)) × Nat × List Report
  | 0, reports => ([], 0, reports)
  | n + 1, reports =>
    let (answer, skipped, later) := call reports
    let (answers, skipped', last) := calls n later
    (answer :: answers, skipped + skipped', last)

namespace Session

variable {s : Session} {reports : List Report}

theorem Expects.receiveTimes (h : s.Expects reports) (n : Nat) :
    (receiveTimes n s).1 = (Report.calls n reports).1 ∧
      (receiveTimes n s).2.Expects (Report.calls n reports).2.2 ∧
      (receiveTimes n s).2.stats.garbled =
        s.stats.garbled + .ofNat (Report.calls n reports).2.1 := by
  induction n generalizing s reports with
  | zero => exact ⟨rfl, h, (UInt64.add_zero _).symm⟩
  | succ n ih =>
    obtain ⟨hanswer, hexpects, -, hgarbled⟩ := h.receive
    obtain ⟨hanswers, hlast, hgarbled'⟩ := ih hexpects
    refine ⟨?_, hlast, ?_⟩
    · change s.receive.1 :: _ = _ :: _
      rw [hanswer, hanswers]
    · change (Session.receiveTimes n s.receive.2).2.stats.garbled =
        _ + .ofNat ((Report.call reports).2.1 + (Report.calls n (Report.call reports).2.2).2.1)
      rw [hgarbled', hgarbled, UInt64.ofNat_add, UInt64.add_assoc]

theorem expects_create (set : TemplateSet) (source : Source) (options : SessionOptions) :
    (create set source options).Expects
      (Decoder.fresh.forecast options set.messages [] (source.arrivals options)) := by
  refine expects_of_idle rfl (Buffer.fits_create _) fun hmode => ⟨?_, fun _ => rfl⟩
  change max (if options.datagrams then maxDatagramBytes else streamBufferBytes) maxMessageBytes = _
  have hmode : options.datagrams = true := hmode
  rw [hmode]
  rfl

end Session

end MarketFeed
