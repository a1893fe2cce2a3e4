import MarketFeed.Proofs.Session.Expectation
import MarketFeed.Proofs.Stream.Renewal
import MarketFeed.Proofs.Template

/-!
# A reset is a fresh start

Whatever a session has received, wherever it was cut or garbled: once it has been reset, by a call
or on receiving a message that ends the history, it cannot be told from a session that is built
anew and given the bytes that are left, unread ones first (`Session.receive_renewed`). What the
decoder comes upon is the same, since no row that is left over is ever shown.
-/

namespace MarketFeed

/-! ## The same to come upon -/

namespace Report

/-- The report without the rows that are kept for later. -/
def shown : Report → Report
  | message m => message m.shown
  | garbled why => garbled why
  | nothing => nothing
  | failed reason => failed reason

end Report

namespace Session

/-- What there is to see of an answer: all but the rows that are kept for later. -/
def seen (answer : Except SessionError (Option Message)) : Except SessionError (Option Message) :=
  answer.map (Option.map Message.shown)

end Session

namespace Report

theorem answer?_shown (report : Report) :
    report.shown.answer? = report.answer?.map Session.seen := by
  cases report <;> rfl

theorem call_shown (reports : List Report) :
    call (reports.map shown) =
      (Session.seen (call reports).1, (call reports).2.1, (call reports).2.2.map shown) := by
  induction reports with
  | nil => rfl
  | cons report reports ih =>
    rw [List.map_cons, call, answer?_shown, call]
    cases report.answer? with
    | some answer => rfl
    | none => simp only [Option.map_none, ih]

theorem calls_shown (n : Nat) (reports : List Report) :
    calls n (reports.map shown) =
      ((calls n reports).1.map Session.seen, (calls n reports).2.1,
        (calls n reports).2.2.map shown) := by
  induction n generalizing reports with
  | zero => rfl
  | succ n ih => simp only [calls, call_shown, ih, List.map_cons]

end Report

namespace Decoding

variable {r r' : Decoding}

theorem Alike.report? (h : r.Alike r') (resetting : Bool) :
    (r.report? resetting).map Report.shown = (r'.report? resetting).map Report.shown := by
  unfold Decoding.report?
  rw [← h.result]
  split
  · next slot hresult =>
    -- What is in the slot is reported as what it shows.
    have hreports (m? : Option Message) : (m?.elim Report.nothing Report.message).shown =
        (m?.map Message.shown).elim Report.nothing Report.message := by
      cases m? <;> rfl
    rw [Option.map_some, Option.map_some, hreports, hreports, h.delivered hresult]
  · rfl
  · rfl

theorem Alike.rest (h : r.Alike r') (datagrams : Bool) (pending : List UInt8) :
    r.rest datagrams pending = r'.rest datagrams pending := by
  rw [Decoding.rest, Decoding.rest, isGarbled, isGarbled, h.result, h.consumed]

end Decoding

namespace Decoder

/-- What there is to come upon does not depend on the rows of the groups, nor does it show them. -/
theorem forecast_alike (options : SessionOptions) {d : Decoder} (hd : d.inProgress = false)
    {ms ms' : Messages} (h : ms.Alike ms') (pending : List UInt8) (arrivals : List Arrival) :
    (d.forecast options ms pending arrivals).map Report.shown =
      (d.forecast options ms' pending arrivals).map Report.shown := by
  have halike := decode_alike h hd pending
  have hreport := halike.report? options.resetOnReset
  cases hr : (d.decode ms pending).report? options.resetOnReset with
  | none =>
    have hdry := Decoding.report?_eq_none_iff.1 hr
    have hdry' := halike.result.symm.trans hdry
    by_cases hcut : options.datagrams = true ∧ pending ≠ []
    · rw [forecast_cut hdry hcut.1 hcut.2, forecast_cut hdry' hcut.1 hcut.2, List.map_cons,
        List.map_cons, ← halike.decoder, forecast_alike options rfl halike.messages]
    · have hwhole : options.datagrams = true → pending = [] := by simpa using hcut
      rw [forecast_await hdry hwhole, forecast_await hdry' hwhole]
      cases arrivals with
      | nil => rfl
      | cons arrival arrivals =>
        cases arrival with
        | bytes chunk => exact forecast_alike options hd h (pending ++ chunk) arrivals
        | nothing => exact congrArg (_ :: ·) (forecast_alike options hd h pending arrivals)
        | failed reason => exact congrArg (_ :: ·) (forecast_alike options hd h pending arrivals)
  | some report =>
    rw [hr] at hreport
    obtain ⟨report', hr', hshown⟩ := Option.map_eq_some_iff.1 hreport.symm
    have hidle := inProgress_nextDecoder options.resetOnReset (Decoding.result_of_report? hr)
    rw [forecast_result hr, forecast_result hr', List.map_cons, List.map_cons, hshown,
      ← halike.nextDecoder, ← halike.rest, forecast_alike options hidle halike.nextMessages]
termination_by (arrivals.length, d.work pending)
decreasing_by
  · exact .right _ (Nat.lt_of_lt_of_le (List.length_pos_iff.2 hcut.2) (Nat.le_add_right _ _))
  · exact .left _ _ (Nat.lt_succ_self _)
  · exact .left _ _ (Nat.lt_succ_self _)
  · exact .left _ _ (Nat.lt_succ_self _)
  · exact .right _ (work_rest_lt hr)

end Decoder

namespace Session

variable {set : TemplateSet} {s s' : Session}

/-! ## What a turn leaves of the receiving side -/

/-- A turn hands over a message, or leaves the messages as the decoder has left them. -/
inductive Turned (s : Session) : Turn → Prop where
  | delivers {slot : Nat} (result : s.attempt.result = .ok slot) :
      Turned s (.done (.ok (s.attempt.nextMessages s.options.resetOnReset)[slot]?)
        (s.after s.attempt s.stats.countMessage))
  | ends {answer : Except SessionError (Option Message)} {s' : Session}
      (answer_ne : ∀ m, answer ≠ .ok (some m)) (incoming : s'.incoming = s.attempt.messages) :
      Turned s (.done answer s')
  | goesOn {s' : Session} (incoming : s'.incoming = s.attempt.messages)
      (options : s'.options = s.options) : Turned s (.again s')

theorem turned_await (s : Session) : Turned s s.decoded.await := by
  unfold await
  dsimp only
  split
  · exact .goesOn rfl rfl
  · exact .ends (by simp) rfl
  · exact .ends (by simp) rfl
  · exact .ends (by simp) rfl

theorem turned (s : Session) : Turned s s.turn := by
  rw [turn_eq]
  split
  · next slot hresult =>
    rw [deliver_eq hresult]
    exact .delivers hresult
  · split
    · exact .goesOn rfl rfl
    · exact s.turned_await
  · split
    · exact .goesOn rfl rfl
    · exact .goesOn rfl rfl

theorem keeps_attempt (s : Session) : s.incoming.Keeps s.attempt.messages :=
  Decoder.keeps_decode s.decoder s.incoming s.buffer.unread

theorem keeps_next (s : Session) (resetting : Bool) :
    s.incoming.Keeps (s.attempt.nextMessages resetting) := by
  rw [Decoding.nextMessages]
  split
  · exact s.keeps_attempt.trans s.attempt.messages.keeps_reset
  · exact s.keeps_attempt

theorem keeps_receive (s : Session) : s.incoming.Keeps s.receive.2.incoming := by
  induction s using receive.induct with
  | case1 s answer s' ht =>
    have hturned := s.turned
    rw [ht] at hturned
    rw [receive_of_done ht]
    cases hturned with
    | delivers result => exact s.keeps_next s.options.resetOnReset
    | ends answer_ne incoming => exact incoming ▸ s.keeps_attempt
  | case2 s s' ht ih =>
    have hturned := s.turned
    rw [ht] at hturned
    rw [receive_of_again ht]
    cases hturned with
    | goesOn incoming options => exact (incoming ▸ s.keeps_attempt).trans ih

/-- A message that ends the history is handed over by a session that has been reset. -/
theorem reset_receive {m : Message} (hanswer : s.receive.1 = .ok (some m)) (hresets : m.resets)
    (hreset : s.options.resetOnReset) :
    s.receive.2.decoder = .fresh ∧
      ∃ ms, s.incoming.Keeps ms ∧ s.receive.2.incoming = ms.reset := by
  induction s using receive.induct with
  | case1 s answer s' ht =>
    have hturned := s.turned
    rw [ht] at hturned
    rw [receive_of_done ht] at hanswer ⊢
    cases hturned with
    | ends answer_ne incoming => exact absurd hanswer (answer_ne m)
    | @delivers slot result =>
      have hslot := Except.ok.inj hanswer
      have hends : s.attempt.endsHistory = true := by
        cases hends : s.attempt.endsHistory with
        | true => rfl
        | false =>
          rw [Decoding.nextMessages, hends, Bool.and_false, if_neg Bool.false_ne_true] at hslot
          rw [Decoding.endsHistory, result] at hends
          simp [hslot, hresets] at hends
      refine ⟨?_, _, s.keeps_attempt, ?_⟩
      · rw [after, Decoding.nextDecoder, hreset, hends]
        rfl
      · rw [after, Decoding.nextMessages, hreset, hends]
        rfl
  | case2 s s' ht ih =>
    have hturned := s.turned
    rw [ht] at hturned
    rw [receive_of_again ht] at hanswer ⊢
    cases hturned with
    | goesOn incoming options =>
      obtain ⟨hdecoder, ms, hkeeps, hincoming⟩ := ih hanswer (options ▸ hreset)
      exact ⟨hdecoder, ms, (incoming ▸ s.keeps_attempt).trans hkeeps, hincoming⟩

/-! ## Histories -/

/-- The sessions that a history of receiving and sending leads to, whatever the source brings. -/
inductive Reached (set : TemplateSet) : Session → Prop where
  | create (source : Source) (options : SessionOptions) : Reached set (create set source options)
  | bring {s : Session} (h : Reached set s) (source : Source) : Reached set { s with source }
  | receive {s : Session} (h : Reached set s) : Reached set s.receive.2
  | reset {s : Session} (h : Reached set s) : Reached set s.reset
  | fill {s : Session} (h : Reached set s) (outgoing : Messages) : Reached set { s with outgoing }
  | encode {s : Session} (h : Reached set s) (id : UInt32) : Reached set (s.encode id).2

/-- A history that ends with a reset: a call, or a message that ends the history. -/
inductive Renewed (set : TemplateSet) : Session → Prop where
  | reset {s : Session} (h : Reached set s) : Renewed set s.reset
  | receive {s : Session} (h : Reached set s) {m : Message} (answer : s.receive.1 = .ok (some m))
      (resets : m.resets) (enabled : s.options.resetOnReset) : Renewed set s.receive.2

/-- Encoding has no part in what is received. -/
theorem encode_eq (s : Session) (id : UInt32) :
    ∃ outgoing encoder, (s.encode id).2 = { s with outgoing, encoder } := by
  unfold encode
  split
  · exact ⟨_, _, rfl⟩
  · split
    · exact ⟨_, _, rfl⟩
    · dsimp only
      split
      · exact ⟨_, _, rfl⟩
      · split
        · exact ⟨_, _, rfl⟩
        · exact ⟨_, _, rfl⟩

theorem Stands.sending {d : Decoder} {ms : Messages} {pending : List UInt8}
    (h : s.Stands d ms pending) (source : Source) (outgoing : Messages) (encoder : Encoder) :
    Stands { s with source, outgoing, encoder } d ms pending :=
  ⟨h.idle, h.fits, h.begun, h.whole, h.room⟩

theorem Stands.reset {d : Decoder} {ms : Messages} {pending : List UInt8}
    (h : s.Stands d ms pending) : Stands s.reset .fresh s.reset.incoming s.reset.buffer.unread :=
  stands_of_idle rfl h.fits h.room

theorem Reached.stands (h : Reached set s) : ∃ d ms pending, s.Stands d ms pending := by
  have of_expects {s : Session} {reports : List Report} (h : s.Expects reports) :
      ∃ d ms pending, s.Stands d ms pending := by
    obtain ⟨d, ms, pending, hs, -⟩ := h
    exact ⟨d, ms, pending, hs⟩
  induction h with
  | create source options => exact of_expects (expects_create set source options)
  | bring _ source ih =>
    obtain ⟨d, ms, pending, hs⟩ := ih
    exact ⟨d, ms, pending, hs.sending source _ _⟩
  | receive _ ih =>
    obtain ⟨d, ms, pending, hs⟩ := ih
    exact of_expects (Expects.receive ⟨d, ms, pending, hs, rfl⟩).2.1
  | reset _ ih =>
    obtain ⟨d, ms, pending, hs⟩ := ih
    exact ⟨_, _, _, hs.reset⟩
  | fill _ outgoing ih =>
    obtain ⟨d, ms, pending, hs⟩ := ih
    exact ⟨d, ms, pending, hs.sending _ outgoing _⟩
  | @encode s _ id ih =>
    obtain ⟨d, ms, pending, hs⟩ := ih
    obtain ⟨outgoing, encoder, heq⟩ := s.encode_eq id
    rw [heq]
    exact ⟨d, ms, pending, hs.sending _ outgoing encoder⟩

theorem Reached.keeps (h : Reached set s) : set.messages.Keeps s.incoming := by
  induction h with
  | create source options => exact Messages.keeps_refl _
  | bring _ source ih => exact ih
  | @receive s _ ih => exact ih.trans s.keeps_receive
  | @reset s _ ih => exact ih.trans s.incoming.keeps_reset
  | fill _ outgoing ih => exact ih
  | @encode s _ id ih =>
    obtain ⟨outgoing, encoder, heq⟩ := s.encode_eq id
    rw [heq]
    exact ih

/-! ## The fresh start -/

theorem Renewed.reached (h : Renewed set s) : Reached set s := by
  cases h with
  | reset h => exact h.reset
  | receive h answer resets enabled => exact h.receive

/-- Of what has been received nothing is left but rows that are not shown. -/
theorem Renewed.alike (h : Renewed set s) :
    s.decoder = .fresh ∧ s.incoming.Alike set.messages := by
  have of_reset {ms : Messages} (hms : set.messages.Keeps ms) : ms.reset.Alike set.messages := by
    have halike := hms.alike_reset set.rectangular_messages
    rwa [set.reset_messages] at halike
  cases h with
  | reset h => exact ⟨rfl, of_reset h.keeps⟩
  | receive h answer resets enabled =>
    obtain ⟨hdecoder, ms, hkeeps, hincoming⟩ := reset_receive answer resets enabled
    exact ⟨hdecoder, hincoming ▸ of_reset (h.keeps.trans hkeeps)⟩

/-- The bytes that are left: those that have been read already, and what the source brings. -/
def continuation (unread : List UInt8) (source : Source) : Source :=
  if unread.isEmpty then source else .bytes unread :: source

theorem expects_continuation (set : TemplateSet) (options : SessionOptions) {unread : List UInt8}
    (hunread : options.datagrams = true → unread.length ≤ maxDatagramBytes) (source : Source) :
    (create set (continuation unread source) options).Expects
      (Decoder.fresh.forecast options set.messages unread (source.arrivals options)) := by
  have hexpects := expects_create set (continuation unread source) options
  unfold continuation at hexpects ⊢
  split
  · next hempty =>
    rw [if_pos hempty] at hexpects
    rwa [List.isEmpty_iff.1 hempty]
  · next hnonempty =>
    rw [if_neg hnonempty] at hexpects
    have hne : unread ≠ [] := fun hnil => hnonempty (List.isEmpty_iff.2 hnil)
    -- All of the bytes come with one read, as a datagram has to.
    let n := if options.datagrams then maxDatagramBytes else unread.length
    have hlength : unread.length ≤ n := by
      dsimp only [n]
      split
      · next hmode => exact hunread hmode
      · exact Nat.le_refl _
    rwa [forecast_take rfl (by rw [Decoder.decode_nil rfl]) (fun _ => rfl) hne (n := n)
      (fun hmode => if_pos hmode), if_pos (by simpa using hlength), List.take_of_length_le hlength]
      at hexpects

theorem Renewed.expects (h : Renewed set s) (source : Source) :
    Expects { s with source } (Decoder.fresh.forecast s.options s.incoming s.buffer.unread
      (source.arrivals s.options)) := by
  obtain ⟨d, ms, pending, hs⟩ := h.reached.stands
  rw [← h.alike.1]
  have hidle : s.decoder.inProgress = false := by
    rw [h.alike.1]
    rfl
  exact expects_of_idle hidle hs.fits hs.room

/--
Behind a reset, whatever the history was, the calls answer as those of a session that is built anew
and given the bytes that are left: with the same fields and rows, skipping as many garbled messages.
-/
theorem receive_renewed (h : Renewed set s) (source : Source) (n : Nat) :
    let resumed := { s with source }
    let fresh := create set (continuation s.buffer.unread source) s.options
    (receiveTimes n resumed).1.map seen = (receiveTimes n fresh).1.map seen ∧
      (receiveTimes n resumed).2.stats.garbled =
        s.stats.garbled + (receiveTimes n fresh).2.stats.garbled := by
  intro resumed fresh
  have hunread (hmode : s.options.datagrams = true) :
      s.buffer.unread.length ≤ maxDatagramBytes := by
    obtain ⟨d, ms, pending, hs⟩ := h.reached.stands
    exact (hs.room hmode).1 ▸ Nat.le_trans (Nat.le_add_left _ _) hs.fits.within
  obtain ⟨hanswers, -, hgarbled⟩ := (h.expects source).receiveTimes n
  obtain ⟨hanswers', -, hgarbled'⟩ :=
    (expects_continuation set s.options hunread source).receiveTimes n
  have hidle : Decoder.fresh.inProgress = false := rfl
  have hforecast := Decoder.forecast_alike s.options hidle h.alike.2 s.buffer.unread
    (source.arrivals s.options)
  have hcalls := congrArg (Report.calls n) hforecast
  rw [Report.calls_shown, Report.calls_shown] at hcalls
  obtain ⟨hseen, hrest⟩ := Prod.mk.inj hcalls
  obtain ⟨hskipped, -⟩ := Prod.mk.inj hrest
  refine ⟨?_, ?_⟩
  · rw [hanswers, hanswers', hseen]
  · rw [hgarbled, hgarbled', hskipped]
    exact congrArg (s.stats.garbled + ·) (UInt64.zero_add _).symm

def ticksAndRows : TemplateSet := ⟨[
  { id := 1, name := "Tick", fields := [
    .scalar { name := "Size", id := 271, kind := .uint, op := .copy }] },
  { id := 2, name := "Book", fields := [
    .sequence { name := "Entries", id := 268, kind := .sequence }
      (.scalar { name := "Count", id := 268, kind := .uint })
      [.scalar { name := "Price", id := 270, kind := .int, op := .copy }]] },
  { id := 3, name := "Reset", resets := true, fields := [] }], rfl⟩

/-- A tick, two rows, an unknown template, and the message that ends the history in two reads. -/
def endedHistory : Source := [
  .bytes [0xE0, 0x81, 0x85, 0xC0, 0x82, 0x82, 0xC0, 0x83, 0x80, 0xC0, 0xFF, 0xC0], .wouldBlock,
  .bytes [0x83, 0xC0, 0x81, 0xC0]]

theorem receive_renewed_ticks :
    let before := (receiveTimes 3 (create ticksAndRows endedHistory {})).2
    let s := before.receive.2
    let source : Source := [.bytes [0x82, 0x81, 0xC0, 0x84]]
    let fresh := create ticksAndRows (continuation s.buffer.unread source) s.options
    Renewed ticksAndRows s ∧ s.stats.garbled = 1 ∧ s.buffer.unread = [0xC0, 0x81, 0xC0] ∧
      (receiveTimes 2 fresh).1.map (fun answer => (handedOver answer).map Message.id) = [[2], []] ∧
      (receiveTimes 2 { s with source }).1.map seen = (receiveTimes 2 fresh).1.map seen ∧
      (receiveTimes 2 { s with source }).2.stats.garbled =
        s.stats.garbled + (receiveTimes 2 fresh).2.stats.garbled := by
  intro before s source fresh
  have hreached : Reached ticksAndRows before := (Reached.create _ _).receive.receive.receive
  have hanswer : before.receive.1 =
      .ok (some { id := 3, name := "Reset", resets := true, items := [] }) := by
    decide +kernel
  have hrenewed : Renewed ticksAndRows s := .receive hreached hanswer rfl (by decide +kernel)
  exact ⟨hrenewed, by decide +kernel, by decide +kernel, by decide +kernel,
    receive_renewed hrenewed source 2⟩

end Session

end MarketFeed
