import MarketFeed.Proofs.Stream.Transcript
import MarketFeed.Session.Basic

/-!
# What there is to come upon

What is still to come of a stream or of datagrams is settled by the decoder and the messages as the
last result left them, the bytes that have arrived since, and what the source still brings:
`Decoder.forecast` lists it. Nothing in that list depends on where the message in flight has been
cut, nor on how large the reads are.
-/

namespace MarketFeed

/-! ## Arrivals -/

/-- What a source brings to those who read it. -/
inductive Arrival where
  | bytes (chunk : List UInt8)
  | nothing
  | failed (reason : String)
deriving DecidableEq, Repr, Inhabited

/-- Bytes in pieces of at most `n`. -/
def pieces (n : Nat) (bytes : List UInt8) : List (List UInt8) :=
  if bytes.length ≤ n ∨ n = 0 then [bytes] else bytes.take n :: pieces n (bytes.drop n)
termination_by bytes.length

/-- A read that brings no bytes looks like the end, and a datagram has a largest size. -/
def ReadEvent.arrivals (options : SessionOptions) : ReadEvent → List Arrival
  | .bytes chunk =>
    if chunk.isEmpty then [.nothing]
    else if options.datagrams then (pieces maxDatagramBytes chunk).map .bytes
    else [.bytes chunk]
  | .interrupted => []
  | .wouldBlock => if options.blocking then [] else [.nothing]
  | .failed reason => [.failed reason]

def Source.arrivals (options : SessionOptions) (source : Source) : List Arrival :=
  source.flatMap (·.arrivals options)

/-! ## Reports -/

/-- What a session comes upon. -/
inductive Report where
  | message (m : Message)
  | garbled (why : DecodeFailure)
  | nothing
  | failed (reason : String)
deriving DecidableEq, Repr, Inhabited

namespace Report

/-- The answer of a call that comes upon this, unless it goes on. -/
def answer? : Report → Option (Except SessionError (Option Message))
  | message m => some (.ok (some m))
  | garbled _ => none
  | nothing => some (.ok none)
  | failed reason => some (.error (.io reason))

/-- The answer of a call, how many garbled messages it skips, and what it leaves ahead. -/
def call : List Report → Except SessionError (Option Message) × Nat × List Report
  | [] => (.ok none, 0, [])
  | report :: reports =>
    match report.answer? with
    | some answer => (answer, 0, reports)
    | none => ((call reports).1, (call reports).2.1 + 1, (call reports).2.2)

end Report

namespace Decoding

/-- What a call comes upon: the message in its slot as the next call finds it, or a garbled one. -/
def report? (resetting : Bool) (r : Decoding) : Option Report :=
  match r.result with
  | .ok slot => some (((r.nextMessages resetting)[slot]?).elim .nothing .message)
  | .error .incomplete => none
  | .error (.garbled e) => some (.garbled (.garbled e))

def isGarbled (r : Decoding) : Bool :=
  match r.result with
  | .error (.garbled _) => true
  | .ok _ | .error .incomplete => false

/-- What a call leaves for the next one: behind a garbled message, nothing of its datagram. -/
def rest (datagrams : Bool) (r : Decoding) (pending : List UInt8) : List UInt8 :=
  if datagrams && r.isGarbled then [] else pending.drop r.consumed

theorem report?_eq_none_iff {resetting : Bool} {r : Decoding} :
    r.report? resetting = none ↔ r.result = .error .incomplete := by
  unfold report?
  split
  · next h => simp [h]
  · next h => simp [h]
  · next h => simp [h]

theorem result_of_report? {resetting : Bool} {r : Decoding} {report : Report}
    (h : r.report? resetting = some report) : r.result ≠ .error .incomplete := by
  intro hresult
  rw [report?_eq_none_iff.2 hresult] at h
  cases h

/-- Only a message that is delivered can end the history. -/
theorem next_of_error (resetting : Bool) {r : Decoding} {why : DecodeFailure}
    (h : r.result = .error why) :
    r.nextDecoder resetting = r.decoder ∧ r.nextMessages resetting = r.messages := by
  simp [nextDecoder, nextMessages, endsHistory, h]

theorem length_nextMessages (resetting : Bool) (r : Decoding) :
    (r.nextMessages resetting).length = r.messages.length := by
  unfold nextMessages
  split
  · rw [Messages.reset, List.length_map]
  · rfl

theorem rest_stream (r : Decoding) (pending : List UInt8) :
    r.rest false pending = pending.drop r.consumed := rfl

theorem length_rest_le (datagrams : Bool) (r : Decoding) (pending : List UInt8) :
    (r.rest datagrams pending).length ≤ (pending.drop r.consumed).length := by
  unfold rest
  split
  · exact Nat.zero_le _
  · exact Nat.le_refl _

end Decoding

namespace Decoder

theorem work_rest_lt {resetting datagrams : Bool} {d : Decoder} {ms : Messages}
    {pending : List UInt8} {report : Report}
    (h : (d.decode ms pending).report? resetting = some report) :
    ((d.decode ms pending).nextDecoder resetting).work
      ((d.decode ms pending).rest datagrams pending) < d.work pending := by
  refine Nat.lt_of_le_of_lt ?_ (decode_lt d ms pending (Decoding.result_of_report? h))
  refine Nat.le_trans (work_nextDecoder_le resetting _ _) ?_
  exact Nat.add_le_add_right (Decoding.length_rest_le datagrams _ pending) _

/--
All there is to come upon, for a decoder between two messages: bytes are decoded from the start of
the message in flight, and in a datagram no message is in flight at the end.
-/
def forecast (options : SessionOptions) (d : Decoder) (ms : Messages) (pending : List UInt8)
    (arrivals : List Arrival) : List Report :=
  let r := d.decode ms pending
  match _h : r.report? options.resetOnReset with
  | some report =>
    report ::
      forecast options (r.nextDecoder options.resetOnReset) (r.nextMessages options.resetOnReset)
        (r.rest options.datagrams pending) arrivals
  | none =>
    if _hcut : options.datagrams = true ∧ pending ≠ [] then
      .garbled .incomplete :: forecast options r.decoder.abandon r.messages [] arrivals
    else
      match arrivals with
      | [] => []
      | .bytes chunk :: arrivals => forecast options d ms (pending ++ chunk) arrivals
      | .nothing :: arrivals => .nothing :: forecast options d ms pending arrivals
      | .failed reason :: arrivals => .failed reason :: forecast options d ms pending arrivals
termination_by (arrivals.length, d.work pending)
decreasing_by
  · exact .right _ (work_rest_lt _h)
  · exact .right _ (Nat.lt_of_lt_of_le (List.length_pos_iff.2 _hcut.2) (Nat.le_add_right _ _))
  all_goals exact .left _ _ (Nat.lt_succ_self _)

section Equations

variable {options : SessionOptions} {d : Decoder} {ms : Messages} {pending : List UInt8}
variable {arrivals : List Arrival}

theorem forecast_result {report : Report}
    (h : (d.decode ms pending).report? options.resetOnReset = some report) :
    d.forecast options ms pending arrivals =
      report ::
        ((d.decode ms pending).nextDecoder options.resetOnReset).forecast options
          ((d.decode ms pending).nextMessages options.resetOnReset)
          ((d.decode ms pending).rest options.datagrams pending) arrivals := by
  rw [forecast.eq_def]
  dsimp only
  split
  · next hr =>
    rw [h] at hr
    rw [Option.some.inj hr]
  · next hr =>
    rw [h] at hr
    cases hr

theorem forecast_cut (h : (d.decode ms pending).result = .error .incomplete)
    (hdatagrams : options.datagrams = true) (hpending : pending ≠ []) :
    d.forecast options ms pending arrivals =
      .garbled .incomplete ::
        (d.decode ms pending).decoder.abandon.forecast options (d.decode ms pending).messages []
          arrivals := by
  have hnone : (d.decode ms pending).report? options.resetOnReset = none :=
    Decoding.report?_eq_none_iff.2 h
  rw [forecast.eq_def]
  dsimp only
  split
  · next hr =>
    rw [hnone] at hr
    cases hr
  · rw [dif_pos ⟨hdatagrams, hpending⟩]

theorem forecast_await (h : (d.decode ms pending).result = .error .incomplete)
    (hwhole : options.datagrams = true → pending = []) :
    d.forecast options ms pending arrivals =
      match arrivals with
      | [] => []
      | .bytes chunk :: arrivals => d.forecast options ms (pending ++ chunk) arrivals
      | .nothing :: arrivals => .nothing :: d.forecast options ms pending arrivals
      | .failed reason :: arrivals => .failed reason :: d.forecast options ms pending arrivals := by
  have hnone : (d.decode ms pending).report? options.resetOnReset = none :=
    Decoding.report?_eq_none_iff.2 h
  rw [forecast.eq_def]
  dsimp only
  split
  · next hr =>
    rw [hnone] at hr
    cases hr
  · rw [dif_neg fun hcut => hcut.2 (hwhole hcut.1)]

end Equations

/-- On a stream, bytes that have yet to arrive come to the same as those that have. -/
theorem forecast_bytes {options : SessionOptions} (hstream : options.datagrams = false)
    {d : Decoder} {ms : Messages} (h : d.Underway ms) (pending chunk : List UInt8)
    (arrivals : List Arrival) :
    d.forecast options ms pending (.bytes chunk :: arrivals) =
      d.forecast options ms (pending ++ chunk) arrivals := by
  cases hr : (d.decode ms pending).report? options.resetOnReset with
  | none =>
    rw [forecast_await (Decoding.report?_eq_none_iff.1 hr) (by simp [hstream])]
  | some report =>
    have hcall := h.decode_append_of_result (Decoding.result_of_report? hr) chunk
    have hr' : (d.decode ms (pending ++ chunk)).report? options.resetOnReset = some report := by
      rw [hcall, hr]
    rw [forecast_result hr, forecast_result hr', hcall, hstream, Decoding.rest_stream,
      Decoding.rest_stream, forecast_bytes hstream (h.next _ _),
      List.drop_append_of_le_length (consumed_le d ms pending)]
termination_by d.work pending
decreasing_by
  rw [← Decoding.rest_stream]
  exact work_rest_lt hr

theorem abandon_of_idle {d : Decoder} (hd : d.inProgress = false) : d.abandon = d := by
  have hstage : d.stage = .idle := by simpa [inProgress] using hd
  rw [abandon, ← hstage]

theorem inProgress_nextDecoder (resetting : Bool) {d : Decoder} {ms : Messages}
    {pending : List UInt8} (h : (d.decode ms pending).result ≠ .error .incomplete) :
    ((d.decode ms pending).nextDecoder resetting).inProgress = false := by
  unfold Decoding.nextDecoder
  split
  · rfl
  · rw [decode_eq] at h ⊢
    generalize resumeFrom (d.lastSlot, ms, 0) d.stage pending = p at h ⊢
    obtain ⟨state, ending, rest⟩ := p
    cases ending with
    | done => rfl
    | garbled e => rfl
    | dry stage => exact absurd rfl h

theorem inProgress_fill {d : Decoder} {ms : Messages} {map : PresenceMap} {slot : Nat}
    {place : Place} {bytes : List UInt8}
    (h : (d.fill ms map slot place bytes).result = .error .incomplete) :
    (d.fill ms map slot place bytes).decoder.inProgress = true := by
  unfold fill at h ⊢
  split at h
  · cases h
  · split at h
    · cases h
    · rfl
    · cases h

theorem inProgress_afterMap {d : Decoder} {ms : Messages} {map : PresenceMap} {bytes : List UInt8}
    (h : (d.afterMap ms map bytes).result = .error .incomplete) :
    (d.afterMap ms map bytes).decoder.inProgress = true := by
  unfold afterMap at h ⊢
  split at h
  · exact inProgress_fill h
  · rfl
  · cases h

/-- A call between two messages that runs dry has begun one, or used no bytes. -/
theorem consumed_eq_zero {d : Decoder} {ms : Messages} {pending : List UInt8}
    (hd : d.inProgress = false) (h : (d.decode ms pending).result = .error .incomplete)
    (hidle : (d.decode ms pending).decoder.inProgress = false) :
    (d.decode ms pending).consumed = 0 := by
  have hstage : d.stage = .idle := by simpa [inProgress] using hd
  have hresume : d.resume ms pending = ⟨.error .incomplete, d, ms, pending⟩ := by
    have hdry : (d.resume ms pending).result = .error .incomplete ∧
        (d.resume ms pending).decoder.inProgress = false := by
      unfold decode at h hidle
      generalize d.resume ms pending = a at h hidle
      obtain ⟨⟨_ | _⟩ | _, _, _, _⟩ := a
      · exact ⟨rfl, hidle⟩
      · cases h
      · cases h
    obtain ⟨hdry, hbegun⟩ := hdry
    unfold resume at hdry hbegun ⊢
    simp only [hstage] at hdry hbegun ⊢
    split at hdry
    · next map rest hread =>
      rw [hread, inProgress_afterMap hdry] at hbegun
      cases hbegun
    · rfl
    · cases hdry
  simp [decode, hresume, Attempt.settle]

end Decoder

end MarketFeed
