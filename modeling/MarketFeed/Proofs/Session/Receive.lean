import MarketFeed.Proofs.Stream.Transcript
import MarketFeed.Session.Basic

/-!
# A session receives what the whole stream comes to

Whatever the reads of a source bring, and whenever they fail, the calls to `receive` hand over the
messages that the stream comes to in one buffer. What is still to come (`Session.outlook`) is told
by the bytes at hand and those in the source together. Every turn takes from its front just what it
hands over or counts as garbled (`Session.Receives`), and moves on until nothing is left.
-/

namespace MarketFeed

namespace Buffer

/-- The bytes lie within the memory, which has room for the largest message. -/
structure Fits (b : Buffer) : Prop where
  within : b.start + b.unread.length ≤ b.capacity
  roomy : maxMessageBytes ≤ b.capacity

variable {b : Buffer}

theorem fits_create (capacity : Nat) : (create capacity).Fits where
  within := Nat.zero_le _
  roomy := Nat.le_max_right _ _

theorem Fits.consume (h : b.Fits) (n : Nat) : (b.consume n).Fits where
  within := by
    have := h.within
    simp only [Buffer.consume, List.isEmpty_iff, List.drop_eq_nil_iff, List.length_drop]
    split <;> omega
  roomy := h.roomy

theorem Fits.makeRoom (h : b.Fits) : b.makeRoom.Fits := by
  obtain ⟨hwithin, hroomy⟩ := h
  unfold Buffer.makeRoom
  split
  · exact ⟨hwithin, hroomy⟩
  · dsimp only
    split
    · exact ⟨by dsimp only; omega, hroomy⟩
    · exact ⟨by dsimp only; omega, by dsimp only; omega⟩

/-- A read is always offered room for a message. -/
theorem Fits.space_makeRoom (h : b.Fits) : maxMessageBytes ≤ b.makeRoom.space := by
  obtain ⟨hwithin, hroomy⟩ := h
  unfold Buffer.makeRoom
  split
  · assumption
  · dsimp only
    split
    · assumption
    · simp only [space]
      omega

theorem Fits.append (h : b.Fits) {bytes : List UInt8} (hbytes : bytes.length ≤ b.space) :
    (b.append bytes).Fits where
  within := by
    have := h.within
    simp only [space, Buffer.append, List.length_append] at hbytes ⊢
    omega
  roomy := h.roomy

end Buffer

namespace Source

/-- The bytes that the reads of a source bring. -/
def content (source : Source) : List UInt8 :=
  source.flatMap fun
    | .bytes chunk => chunk
    | .interrupted | .wouldBlock | .failed _ => []

theorem weight_eq_zero {source : Source} (h : source.weight = 0) : source = [] := by
  cases source with
  | nil => rfl
  | cons e source => cases e <;> simp [weight, ReadEvent.weight] at h

/-- What does not fit is left in front of the source. -/
theorem content_left (left : List UInt8) (source : Source) :
    content (if left.isEmpty then source else .bytes left :: source) = left ++ content source := by
  split
  · next hempty => rw [List.isEmpty_iff.1 hempty, List.nil_append]
  · rfl

/-- A refill moves bytes from the source to the buffer, and none get lost or change places. -/
theorem refill_content {blocking : Bool} {source source' : Source} {b b' : Buffer} {r : Refill}
    (h : refill blocking source b = (r, source', b')) (hb : b.Fits) :
    b'.Fits ∧ b'.unread ++ source'.content = b.unread ++ source.content := by
  induction source generalizing b with
  | nil =>
    obtain ⟨-, rfl, rfl⟩ := by simpa [refill] using h
    exact ⟨hb.makeRoom, by simp⟩
  | cons e source ih =>
    cases e with
    | interrupted => simpa [content] using ih h hb.makeRoom
    | wouldBlock =>
      simp only [refill] at h
      split at h
      · simpa [content] using ih h hb.makeRoom
      · obtain ⟨-, rfl, rfl⟩ := by simpa using h
        exact ⟨hb.makeRoom, by simp [content]⟩
    | failed reason =>
      obtain ⟨-, rfl, rfl⟩ := by simpa [refill] using h
      exact ⟨hb.makeRoom, by simp [content]⟩
    | bytes chunk =>
      have hchunk : content (.bytes chunk :: source) = chunk ++ content source := rfl
      have hsplit := List.take_append_drop b.makeRoom.space chunk
      simp only [refill] at h
      split at h
      · next hnil =>
        simp only [Prod.mk.injEq] at h
        obtain ⟨-, rfl, rfl⟩ := h
        rw [hnil, List.nil_append] at hsplit
        exact ⟨hb.makeRoom, by rw [content_left, hsplit, hchunk, Buffer.unread_makeRoom]⟩
      · simp only [Prod.mk.injEq] at h
        obtain ⟨-, rfl, rfl⟩ := h
        refine ⟨hb.makeRoom.append (by rw [List.length_take]; exact Nat.min_le_left _ _), ?_⟩
        rw [content_left, hchunk, Buffer.append, Buffer.unread_makeRoom, List.append_assoc,
          ← List.append_assoc (List.take _ _), hsplit]

/-- A refill that brings nothing leaves the bytes at hand, and takes an event or finds none. -/
theorem refill_idle {blocking : Bool} {source source' : Source} {b b' : Buffer} {r : Refill}
    (h : refill blocking source b = (r, source', b')) (hb : b.Fits) (hr : ∀ n, r ≠ .read n) :
    b'.unread = b.unread ∧ source'.weight ≤ source.weight ∧
      (source'.weight < source.weight ∨ source' = []) := by
  induction source generalizing b with
  | nil =>
    obtain ⟨-, rfl, rfl⟩ := by simpa [refill] using h
    simp
  | cons e source ih =>
    cases e with
    | interrupted =>
      obtain ⟨hunread, hle, -⟩ := ih h hb.makeRoom
      simp only [weight, List.map_cons, List.foldr_cons, ReadEvent.weight] at hle ⊢
      exact ⟨by simpa using hunread, by omega, .inl (by omega)⟩
    | wouldBlock =>
      simp only [refill] at h
      split at h
      · obtain ⟨hunread, hle, -⟩ := ih h hb.makeRoom
        simp only [weight, List.map_cons, List.foldr_cons, ReadEvent.weight] at hle ⊢
        exact ⟨by simpa using hunread, by omega, .inl (by omega)⟩
      · obtain ⟨-, rfl, rfl⟩ := by simpa using h
        simp [weight, ReadEvent.weight]
    | failed reason =>
      obtain ⟨-, rfl, rfl⟩ := by simpa [refill] using h
      simp [weight, ReadEvent.weight]
    | bytes chunk =>
      simp only [refill] at h
      split at h
      · next hnil =>
        simp only [Prod.mk.injEq] at h
        obtain ⟨-, rfl, rfl⟩ := h
        -- There is room, so nothing was read because there was nothing in the chunk.
        have hspace := hb.space_makeRoom
        have hchunk : chunk = [] := by
          rcases List.take_eq_nil_iff.1 hnil with hzero | hempty
          · rw [hzero] at hspace
            exact absurd hspace (by decide)
          · exact hempty
        simp [hchunk, weight, ReadEvent.weight]
      · simp only [Prod.mk.injEq] at h
        exact absurd h.1.symm (hr _)

end Source

namespace Session

/-- A session that reads a stream, between two turns. -/
structure Streaming (s : Session) : Prop where
  stream : s.options.datagrams = false
  underway : s.decoder.Underway s.incoming
  fits : s.buffer.Fits

/-- What the bytes at hand and those in the source will come to. -/
def outlook (s : Session) : List (Except DecodeError Message) :=
  s.decoder.transcript s.options.resetOnReset s.incoming (s.buffer.unread ++ s.source.content)

/-- From one state to the other just these messages are handed over, and what is garbled counted. -/
structure Receives (s : Session) (messages : List Message) (s' : Session) : Prop where
  streaming : s'.Streaming
  weight : s'.source.weight ≤ s.source.weight
  past : ∃ past, s.outlook = past ++ s'.outlook ∧ received past = messages ∧
    s'.stats.garbled = s.stats.garbled + .ofNat (garbledCount past)

theorem Receives.refl {s : Session} (h : s.Streaming) : s.Receives [] s :=
  ⟨h, Nat.le_refl _, [], rfl, rfl, by simp [garbledCount]⟩

theorem Receives.trans {s s' s'' : Session} {messages later : List Message}
    (h : s.Receives messages s') (h' : s'.Receives later s'') :
    s.Receives (messages ++ later) s'' := by
  obtain ⟨-, hweight, past, hpast, rfl, hgarbled⟩ := h
  obtain ⟨hstreaming, hweight', past', hpast', rfl, hgarbled'⟩ := h'
  refine ⟨hstreaming, by omega, past ++ past', ?_, received_append past past', ?_⟩
  · rw [hpast, hpast', List.append_assoc]
  · rw [hgarbled', hgarbled, garbledCount_append, UInt64.ofNat_add, UInt64.add_assoc]

/-- Nothing is left to be read or handed over. -/
def IsSpent (s : Session) : Prop := s.source = [] ∧ s.outlook = []

theorem Receives.isSpent {s s' : Session} {messages : List Message} (h : s.Receives messages s')
    (hs : s.IsSpent) : s'.IsSpent := by
  obtain ⟨hsource, houtlook⟩ := hs
  obtain ⟨past, hpast, -⟩ := h.past
  have hweight := h.weight
  rw [hsource] at hweight
  rw [houtlook] at hpast
  exact ⟨Source.weight_eq_zero (Nat.le_zero.1 hweight),
    (List.append_eq_nil_iff.1 hpast.symm).2⟩

/-! ## Turn by turn -/

/-- The message that an answer hands over. -/
def handedOver : Except SessionError (Option Message) → List Message
  | .ok (some m) => [m]
  | .ok none | .error _ => []

/-- The session once a call to its decoder has come to a result. -/
def after (s : Session) (r : Decoding) (stats : FeedStats) : Session :=
  { s with
    decoder := r.nextDecoder s.options.resetOnReset
    incoming := r.nextMessages s.options.resetOnReset
    buffer := s.buffer.consume r.consumed
    stats }

variable {s s' : Session}

/-- A call that comes to a result takes its outcome from the front of what is to come. -/
theorem Streaming.receives_after (h : s.Streaming) {r : Decoding} {messages : List Message}
    {stats : FeedStats} (hr : s.decoder.decode s.incoming s.buffer.unread = r)
    (hresult : r.result ≠ .error .incomplete)
    (hmessages : received (r.outcomes s.options.resetOnReset) = messages)
    (hgarbled : stats.garbled =
      s.stats.garbled + .ofNat (garbledCount (r.outcomes s.options.resetOnReset))) :
    s.Receives messages (s.after r stats) ∧ (s.after r stats).work < s.work := by
  subst hr
  refine ⟨⟨⟨h.stream, h.underway.next _ _, h.fits.consume _⟩, Nat.le_refl _, _, ?_, hmessages,
    hgarbled⟩, Nat.add_lt_add_left ?_ _⟩
  · exact h.underway.transcript_of_result hresult _
  · refine Nat.lt_of_le_of_lt (Decoder.work_nextDecoder_le _ _ _) ?_
    exact Decoder.decode_lt _ _ _ hresult

/-- A session that waits for more bytes has lost none, and what is to come is the same. -/
theorem Streaming.receives_await (h : s.Streaming) {r : Decoding} {source : Source}
    {buffer : Buffer} {refill : Refill} {atEnd : Bool} {stats : FeedStats}
    (hr : s.decoder.decode s.incoming s.buffer.unread = r)
    (hresult : r.result = .error .incomplete)
    (hrefill : s.source.refill s.options.blocking (s.buffer.consume r.consumed) =
      (refill, source, buffer))
    (hweight : source.weight ≤ s.source.weight) (hgarbled : stats.garbled = s.stats.garbled) :
    s.Receives [] { s with
      decoder := r.decoder, incoming := r.messages, source, buffer, atEnd, stats } := by
  subst hr
  obtain ⟨hfits, hcontent⟩ := Source.refill_content hrefill (h.fits.consume _)
  refine ⟨⟨h.stream, h.underway.decode _, hfits⟩, hweight, [], ?_, rfl, ?_⟩
  · rw [outlook, h.underway.transcript_of_incomplete hresult, ← Buffer.unread_consume, ← hcontent]
    rfl
  · simp [hgarbled, garbledCount]

/-- A session that has waited in vain has made use of a read, or there is none left. -/
theorem Streaming.spent_of_await (h : s.Streaming) {r : Decoding} {source : Source}
    {buffer : Buffer} {refill : Refill} {atEnd : Bool} {stats : FeedStats}
    (hr : s.decoder.decode s.incoming s.buffer.unread = r)
    (hresult : r.result = .error .incomplete)
    (hrefill : s.source.refill s.options.blocking (s.buffer.consume r.consumed) =
      (refill, source, buffer))
    (hidle : ∀ n, refill ≠ .read n) (hs' : s' = { s with
      decoder := r.decoder, incoming := r.messages, source, buffer, atEnd, stats }) :
    s'.work < s.work ∨ s'.IsSpent := by
  obtain ⟨hunread, -, hweight⟩ := Source.refill_idle hrefill (h.fits.consume _) hidle
  subst hr hs'
  rw [Buffer.unread_consume] at hunread
  rcases hweight with hlt | rfl
  · left
    simp only [work, pendingWork, hunread, List.length_drop]
    split <;> omega
  · right
    refine ⟨rfl, ?_⟩
    -- The call that has run dry does so again without more bytes.
    have hdry : s.decoder.transcript s.options.resetOnReset s.incoming (s.buffer.unread ++ []) =
        [] := by
      rw [List.append_nil, Decoder.transcript_incomplete hresult]
    rw [h.underway.transcript_of_incomplete hresult, ← hunread] at hdry
    exact hdry

/-- A turn that leads to another one hands nothing over. -/
theorem Streaming.receives_turn_again (h : s.Streaming) (ht : s.turn = .again s') :
    s.Receives [] s' := by
  unfold turn at ht
  simp only [h.stream, Bool.false_and, Bool.false_eq_true, if_false] at ht
  generalize hr : s.decoder.decode s.incoming s.buffer.unread = r at ht
  split at ht
  · simp [deliver] at ht
  · next hresult =>
    unfold await at ht
    simp only at ht
    split at ht
    · next hrefill =>
      obtain rfl := Turn.again.inj ht
      obtain ⟨-, hweight, -⟩ := Source.refill_read hrefill
      exact h.receives_await hr hresult hrefill (by omega) rfl
    all_goals simp at ht
  · next e hresult =>
    have hafter : s' = s.after r s.stats.countGarbled := by
      rw [← Turn.again.inj ht]
      simp [after, Decoding.nextDecoder, Decoding.nextMessages, Decoding.endsHistory, hresult]
    have houtcomes : r.outcomes s.options.resetOnReset = [.error e] := by
      simp [Decoding.outcomes, hresult]
    rw [hafter]
    exact (h.receives_after hr (by simp [hresult]) (by rw [houtcomes]; rfl)
      (by rw [houtcomes]; rfl)).1

/-- A turn that ends with an answer hands over its message. -/
theorem Streaming.receives_turn_done (h : s.Streaming)
    {answer : Except SessionError (Option Message)} (ht : s.turn = .done answer s') :
    s.Receives (handedOver answer) s' ∧ (s'.work < s.work ∨ s'.IsSpent) := by
  unfold turn at ht
  simp only [h.stream, Bool.false_and, Bool.false_eq_true, if_false] at ht
  generalize hr : s.decoder.decode s.incoming s.buffer.unread = r at ht
  split at ht
  · next slot hresult =>
    have hafter : s' = s.after r s.stats.countMessage ∧ answer = .ok s'.incoming[slot]? := by
      unfold deliver at ht
      obtain ⟨rfl, rfl⟩ := Turn.done.inj ht
      refine ⟨?_, rfl⟩
      simp only [after, Decoding.nextDecoder, Decoding.nextMessages, Decoding.endsHistory, hresult,
        Bool.and_comm s.options.resetOnReset]
      split <;> rfl
    obtain ⟨rfl, rfl⟩ := hafter
    have houtcomes : r.outcomes s.options.resetOnReset =
        ((s.after r s.stats.countMessage).incoming[slot]?).toList.map .ok := by
      simp only [Decoding.outcomes, hresult]
      rfl
    have hmessages : received (r.outcomes s.options.resetOnReset) =
        handedOver (.ok (s.after r s.stats.countMessage).incoming[slot]?) := by
      rw [houtcomes, received_map_ok]
      cases (s.after r s.stats.countMessage).incoming[slot]? <;> rfl
    have hgarbled : s.stats.countMessage.garbled =
        s.stats.garbled + .ofNat (garbledCount (r.outcomes s.options.resetOnReset)) := by
      rw [houtcomes, garbledCount_map_ok]
      exact (UInt64.add_zero _).symm
    obtain ⟨hreceives, hwork⟩ := h.receives_after hr (by simp [hresult]) hmessages hgarbled
    exact ⟨hreceives, .inl hwork⟩
  · next hresult =>
    unfold await at ht
    simp only at ht
    split at ht
    · simp at ht
    all_goals
      next hrefill =>
      obtain ⟨-, hweight, -⟩ := Source.refill_idle hrefill (h.fits.consume _) (by simp)
      obtain ⟨rfl, rfl⟩ := Turn.done.inj ht
      exact ⟨h.receives_await hr hresult hrefill hweight rfl,
        h.spent_of_await hr hresult hrefill (by simp) rfl⟩
  · simp at ht

/-! ## Call by call -/

/-- A call hands over its message, and makes headway unless nothing is left. -/
theorem Streaming.receives_receive (h : s.Streaming) :
    s.Receives (handedOver s.receive.1) s.receive.2 ∧
      (s.receive.2.work < s.work ∨ s.receive.2.IsSpent) := by
  induction s using receive.induct with
  | case1 s answer s' ht =>
    rw [receive]
    split
    · next ht' =>
      obtain ⟨rfl, rfl⟩ := Turn.done.inj (ht.symm.trans ht')
      exact h.receives_turn_done ht
    · next ht' => rw [ht] at ht'; cases ht'
  | case2 s s' ht ih =>
    have hagain := h.receives_turn_again ht
    obtain ⟨hreceives, hwork⟩ := ih hagain.streaming
    rw [receive]
    split
    · next ht' => rw [ht] at ht'; cases ht'
    · next ht' =>
      obtain rfl := Turn.again.inj (ht.symm.trans ht')
      exact ⟨hagain.trans hreceives, hwork.imp_left fun hlt => Nat.lt_trans hlt (turn_again ht)⟩

/-- The answers of so many calls to `receive`, and the session after them. -/
def receiveTimes : Nat → Session → List (Except SessionError (Option Message)) × Session
  | 0, s => ([], s)
  | n + 1, s =>
    let (answers, last) := receiveTimes n s.receive.2
    (s.receive.1 :: answers, last)

theorem Streaming.receives_receiveTimes (h : s.Streaming) (n : Nat) :
    s.Receives ((receiveTimes n s).1.flatMap handedOver) (receiveTimes n s).2 := by
  induction n generalizing s with
  | zero => exact .refl h
  | succ n ih =>
    have hcall := h.receives_receive.1
    exact hcall.trans (ih hcall.streaming)

theorem isSpent_receiveTimes (h : s.Streaming) (hspent : s.IsSpent) (n : Nat) :
    (receiveTimes n s).2.IsSpent :=
  (h.receives_receiveTimes n).isSpent hspent

/-- Every call makes headway, so that at some time nothing is left. -/
theorem Streaming.eventually_isSpent {s : Session} (h : s.Streaming) :
    ∃ calls, ∀ n, calls ≤ n → (receiveTimes n s).2.IsSpent := by
  obtain ⟨hcall, hwork⟩ := h.receives_receive
  rcases hwork with hlt | hspent
  · obtain ⟨calls, hcalls⟩ := hcall.streaming.eventually_isSpent
    refine ⟨calls + 1, fun n hn => ?_⟩
    obtain ⟨n, rfl⟩ := Nat.exists_eq_add_of_le' hn
    exact hcalls (n + calls) (Nat.le_add_left _ _)
  · refine ⟨1, fun n hn => ?_⟩
    obtain ⟨n, rfl⟩ := Nat.exists_eq_add_of_le' hn
    exact isSpent_receiveTimes hcall.streaming hspent n
termination_by s.work

theorem streaming_create (set : TemplateSet) (source : Source) {options : SessionOptions}
    (h : options.datagrams = false) : (create set source options).Streaming where
  stream := h
  underway := Decoder.underway_idle none _
  fits := Buffer.fits_create _

/--
However the reads of a stream cut it and fail, the calls to `receive` hand over the messages that
the stream comes to in one buffer, in their order. Once enough calls are made, all of them have
been handed over, and just the garbled ones are counted.
-/
theorem receive_transcript (set : TemplateSet) (source : Source) (options : SessionOptions)
    (hstream : options.datagrams = false) :
    let s := create set source options
    let outcomes := Decoder.fresh.transcript options.resetOnReset set.messages source.content
    (∀ n, (receiveTimes n s).1.flatMap handedOver <+: received outcomes) ∧
      ∃ calls, ∀ n, calls ≤ n →
        (receiveTimes n s).2.source = [] ∧
        (receiveTimes n s).1.flatMap handedOver = received outcomes ∧
        (receiveTimes n s).2.stats.garbled = .ofNat (garbledCount outcomes) := by
  intro s outcomes
  have h : s.Streaming := streaming_create set source hstream
  have houtlook : s.outlook = outcomes := rfl
  constructor
  · intro n
    obtain ⟨past, hpast, hreceived, -⟩ := (h.receives_receiveTimes n).past
    rw [← houtlook, hpast, received_append, ← hreceived]
    exact List.prefix_append _ _
  · obtain ⟨calls, hcalls⟩ := h.eventually_isSpent
    refine ⟨calls, fun n hn => ?_⟩
    obtain ⟨hsource, hnothing⟩ := hcalls n hn
    obtain ⟨past, hpast, hreceived, hgarbled⟩ := (h.receives_receiveTimes n).past
    rw [hnothing, List.append_nil, houtlook] at hpast
    rw [hpast]
    exact ⟨hsource, hreceived.symm, hgarbled.trans (UInt64.zero_add _)⟩

/-- A tick, an unknown template, a reset, a tick that has nothing to repeat any more, and a tick. -/
def interruptedTicks : Source := [
  .bytes [0xE0], .interrupted, .bytes [0x81, 0x85, 0xC0], .wouldBlock, .bytes [0xE3, 0xC0],
  .failed "timed out", .bytes [], .bytes [0x82, 0xC0, 0x81, 0xE0, 0x81], .bytes [0x86]]

theorem receive_transcript_interrupted :
    let set : TemplateSet := ⟨[
      { id := 1, name := "Tick", fields := [
        .scalar { name := "Size", id := 271, kind := .uint, op := .copy }] },
      { id := 2, name := "Reset", resets := true, fields := [] }], rfl⟩
    let s := create set interruptedTicks {}
    let outcomes := Decoder.fresh.transcript true set.messages interruptedTicks.content
    (received outcomes).map (·.name) = ["Tick", "Reset", "Tick"] ∧ garbledCount outcomes = 2 ∧
      ∃ calls, ∀ n, calls ≤ n →
        (receiveTimes n s).2.source = [] ∧
        (receiveTimes n s).1.flatMap handedOver = received outcomes ∧
        (receiveTimes n s).2.stats.garbled = .ofNat (garbledCount outcomes) := by
  intro set s outcomes
  exact ⟨by decide +kernel, by decide +kernel, (receive_transcript set interruptedTicks {} rfl).2⟩

end Session

end MarketFeed
