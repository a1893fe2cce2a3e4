import MarketFeed.Proofs.Session.Expectation
import MarketFeed.Proofs.Stream.Relay

/-!
# Datagrams are read one by one

A datagram is decoded message after message until one is garbled or incomplete or nothing is left:
`Decoder.readDatagram` is that reading, which sees the bytes of one datagram only and hands on the
dictionaries. What a session has ahead of it is one reading after another
(`Decoder.outcomes_forecast`), so the calls to `receive` hand over just their messages, and just the
datagrams that are cut short are counted: `Session.receive_datagrams`.
-/

namespace MarketFeed

/-- What one datagram comes to. -/
structure Reading where
  messages : List Message
  /-- Why the datagram was cut short, if it was. -/
  cut : Option DecodeFailure := none
  /-- The number of bytes that were decoded. -/
  used : Nat := 0
  decoder : Decoder
  slots : Messages

namespace Decoder

/--
Decodes message after message from the start of a datagram, until one is garbled or incomplete or
the datagram ends.
-/
def readDatagram (resetting : Bool) (d : Decoder) (ms : Messages) (bytes : List UInt8) : Reading :=
  if bytes = [] then { messages := [], decoder := d, slots := ms }
  else
    let r := d.decode ms bytes
    match _h : r.result with
    | .ok slot =>
      let later := readDatagram resetting (r.nextDecoder resetting) (r.nextMessages resetting)
        (bytes.drop r.consumed)
      { later with
        messages := ((r.nextMessages resetting)[slot]?).toList ++ later.messages
        used := r.consumed + later.used }
    | .error why =>
      { messages := []
        cut := why
        used := r.consumed
        decoder := r.decoder.abandon
        slots := r.messages }
termination_by d.work bytes
decreasing_by
  refine Nat.lt_of_le_of_lt (work_nextDecoder_le resetting _ _) ?_
  exact decode_lt d ms bytes (by simp [r, _h])

section Equations

variable {resetting : Bool} {d : Decoder} {ms : Messages} {bytes : List UInt8}

theorem readDatagram_nil (resetting : Bool) (d : Decoder) (ms : Messages) :
    d.readDatagram resetting ms [] = { messages := [], decoder := d, slots := ms } := by
  rw [readDatagram.eq_def, if_pos rfl]

theorem readDatagram_ok (hbytes : bytes ≠ []) {slot : Nat}
    (h : (d.decode ms bytes).result = .ok slot) :
    d.readDatagram resetting ms bytes =
      let r := d.decode ms bytes
      let later := (r.nextDecoder resetting).readDatagram resetting (r.nextMessages resetting)
        (bytes.drop r.consumed)
      { later with
        messages := ((r.nextMessages resetting)[slot]?).toList ++ later.messages
        used := r.consumed + later.used } := by
  rw [readDatagram.eq_def, if_neg hbytes]
  dsimp only
  split
  · next hr =>
    rw [h] at hr
    rw [Except.ok.inj hr]
  · next hr =>
    rw [h] at hr
    cases hr

theorem readDatagram_cut (hbytes : bytes ≠ []) {why : DecodeFailure}
    (h : (d.decode ms bytes).result = .error why) :
    d.readDatagram resetting ms bytes =
      { messages := []
        cut := why
        used := (d.decode ms bytes).consumed
        decoder := (d.decode ms bytes).decoder.abandon
        slots := (d.decode ms bytes).messages } := by
  rw [readDatagram.eq_def, if_neg hbytes]
  dsimp only
  split
  · next hr =>
    rw [h] at hr
    cases hr
  · next hr =>
    rw [h] at hr
    rw [Except.error.inj hr]

end Equations

/-- A datagram is empty, is cut short by its first message, or goes on behind that one. -/
theorem datagram_induction (resetting : Bool)
    {P : ∀ {d : Decoder}, d.inProgress = false → Messages → List UInt8 → Prop}
    (nil : ∀ {d : Decoder} {ms} (hd : d.inProgress = false), P hd ms [])
    (cut : ∀ {d : Decoder} {ms bytes why} (hd : d.inProgress = false), bytes ≠ [] →
      (d.decode ms bytes).result = .error why → P hd ms bytes)
    (ok : ∀ {d : Decoder} {ms bytes slot} (hd : d.inProgress = false), bytes ≠ [] →
      (d.decode ms bytes).result = .ok slot →
      ∀ hnext : ((d.decode ms bytes).nextDecoder resetting).inProgress = false,
        P hnext ((d.decode ms bytes).nextMessages resetting)
          (bytes.drop (d.decode ms bytes).consumed) → P hd ms bytes)
    {d : Decoder} (hd : d.inProgress = false) (ms : Messages) (bytes : List UInt8) :
    P hd ms bytes := by
  by_cases hbytes : bytes = []
  · subst hbytes
    exact nil hd
  · cases hr : (d.decode ms bytes).result with
    | error why => exact cut hd hbytes hr
    | ok slot =>
      have hresult : (d.decode ms bytes).result ≠ .error .incomplete := by simp [hr]
      have hnext := inProgress_nextDecoder resetting hresult
      exact ok hd hbytes hr hnext (datagram_induction resetting nil cut ok hnext _ _)
termination_by d.work bytes
decreasing_by
  exact Nat.lt_of_le_of_lt (work_nextDecoder_le resetting _ _) (decode_lt d ms bytes hresult)

theorem inProgress_readDatagram (resetting : Bool) {d : Decoder} (hd : d.inProgress = false)
    (ms : Messages) (bytes : List UInt8) :
    (d.readDatagram resetting ms bytes).decoder.inProgress = false := by
  induction hd, ms, bytes using datagram_induction resetting with
  | nil hd =>
    rw [readDatagram_nil]
    exact hd
  | cut hd hbytes h =>
    rw [readDatagram_cut hbytes h]
    rfl
  | ok hd hbytes h hnext ih =>
    rw [readDatagram_ok hbytes h]
    exact ih

/-- A call that comes to a result needs no more bytes than it consumes. -/
theorem Underway.decode_take {d : Decoder} {ms : Messages} (h : d.Underway ms) {bytes : List UInt8}
    (hr : (d.decode ms bytes).result ≠ .error .incomplete) (more : List UInt8) :
    d.decode ms (bytes.take (d.decode ms bytes).consumed ++ more) = d.decode ms bytes := by
  -- The bytes that a read has used settle how it ends, and a garbled one has used some.
  have hcut : d.decode ms (bytes.take (d.decode ms bytes).consumed) = d.decode ms bytes := by
    rw [decode_eq] at hr
    rw [decode_eq d ms bytes, decode_eq]
    rcases hp : resumeFrom (d.lastSlot, ms, 0) d.stage bytes with ⟨s, ending, rest⟩
    rw [hp] at hr
    cases ending with
    | dry stage => exact absurd rfl hr
    | done =>
      obtain ⟨used, rfl, hused⟩ := h.resumable.done hp
      have hall := decodingOf_done s used []
      rw [← hused [], List.append_nil] at hall
      rw [decodingOf_done, List.take_left, hall]
    | garbled e =>
      have hlt := h.resumable.length_lt_of_garbled h.stuck hp
      obtain ⟨used, rfl, hused⟩ := h.resumable.garbled hp
      have hne : used ≠ [] := by
        rintro rfl
        simp at hlt
      have hall := decodingOf_garbled s e hne []
      rw [← hused [], List.append_nil] at hall
      rw [decodingOf_garbled s e hne, List.take_left, hall]
  rw [h.decode_append_of_result (by rw [hcut]; exact hr), hcut]

theorem take_append_ne_nil {bytes : List UInt8} {n : Nat} (hbytes : bytes ≠ []) (hn : 0 < n)
    (more : List UInt8) : bytes.take n ++ more ≠ [] := by
  cases bytes with
  | nil => exact absurd rfl hbytes
  | cons byte bytes =>
    obtain ⟨n, rfl⟩ := Nat.exists_eq_succ_of_ne_zero (Nat.pos_iff_ne_zero.1 hn)
    simp

/-- Behind a garbled message no byte of a datagram is decoded: it may be any other. -/
theorem readDatagram_take {resetting : Bool} {d : Decoder} (hd : d.inProgress = false)
    {ms : Messages} {bytes : List UInt8} {e : DecodeError}
    (hcut : (d.readDatagram resetting ms bytes).cut = some (.garbled e)) (more : List UInt8) :
    d.readDatagram resetting ms (bytes.take (d.readDatagram resetting ms bytes).used ++ more) =
      d.readDatagram resetting ms bytes := by
  induction hd, ms, bytes using datagram_induction resetting with
  | nil hd =>
    rw [readDatagram_nil] at hcut
    cases hcut
  | @cut d ms bytes why hd hbytes h =>
    rw [readDatagram_cut hbytes h] at hcut ⊢
    obtain rfl := Option.some.inj hcut
    have hresult : (d.decode ms bytes).result ≠ .error .incomplete := by simp [h]
    have hcall := (underway_of_idle hd).decode_take hresult more
    have hne := take_append_ne_nil hbytes ((decode_garbled h).2 hbytes) more
    rw [readDatagram_cut hne (by rw [hcall]; exact h), hcall]
  | @ok d ms bytes slot hd hbytes h hnext ih =>
    have hresult : (d.decode ms bytes).result ≠ .error .incomplete := by simp [h]
    have hpos : 0 < (d.decode ms bytes).consumed := by
      have hlt := decode_lt d ms bytes hresult
      simp only [work, List.length_drop, hd] at hlt
      simp at hlt
      omega
    rw [readDatagram_ok hbytes h] at hcut ⊢
    have hlater := ih hcut
    dsimp only
    rw [List.take_add, List.append_assoc]
    generalize ((d.decode ms bytes).nextDecoder resetting).readDatagram resetting
      ((d.decode ms bytes).nextMessages resetting)
      (bytes.drop (d.decode ms bytes).consumed) = later at hlater ⊢
    -- The first call uses the same bytes again, with those behind them that the others have used.
    have hcall := (underway_of_idle hd).decode_take hresult
      ((bytes.drop (d.decode ms bytes).consumed).take later.used ++ more)
    have hlength : (bytes.take (d.decode ms bytes).consumed).length =
        (d.decode ms bytes).consumed := by
      rw [List.length_take, Nat.min_eq_left (consumed_le d ms bytes)]
    rw [readDatagram_ok (take_append_ne_nil hbytes hpos _) (by rw [hcall]; exact h), hcall]
    dsimp only
    rw [List.drop_left' hlength, hlater]

theorem exists_delivered (resetting : Bool) {d : Decoder} (hd : d.inProgress = false)
    {ms : Messages} {bytes : List UInt8} {slot : Nat}
    (h : (d.decode ms bytes).result = .ok slot) :
    ∃ m, ((d.decode ms bytes).nextMessages resetting)[slot]? = some m := by
  have hstage : d.stage = .idle := by simpa [inProgress] using hd
  obtain ⟨map, front, back, rest, m, m', -, -, hm, -, hdecode⟩ := decode_eq_ok hstage h
  have hlt : slot < ms.length := (List.getElem?_eq_some_iff.1 hm).1
  have hlength : ((d.decode ms bytes).nextMessages resetting).length = ms.length := by
    rw [Decoding.length_nextMessages, hdecode, List.length_set]
  exact ⟨_, List.getElem?_eq_getElem (by omega)⟩

end Decoder

/-- What is come upon in a datagram. -/
def Reading.reports (r : Reading) : List Report :=
  r.messages.map .message ++ r.cut.toList.map .garbled

namespace Decoder

/-- What there is to come upon begins with what the datagram at hand comes to. -/
theorem forecast_datagram {options : SessionOptions} (hmode : options.datagrams = true)
    {d : Decoder} (hd : d.inProgress = false) (ms : Messages) (bytes : List UInt8)
    (arrivals : List Arrival) :
    d.forecast options ms bytes arrivals =
      (d.readDatagram options.resetOnReset ms bytes).reports ++
        (d.readDatagram options.resetOnReset ms bytes).decoder.forecast options
          (d.readDatagram options.resetOnReset ms bytes).slots [] arrivals := by
  induction hd, ms, bytes using datagram_induction options.resetOnReset with
  | nil hd =>
    rw [readDatagram_nil]
    rfl
  | @cut d ms bytes why hd hbytes h =>
    rw [readDatagram_cut hbytes h]
    cases why with
    | incomplete =>
      rw [forecast_cut h hmode hbytes]
      rfl
    | garbled e =>
      have hreport : (d.decode ms bytes).report? options.resetOnReset =
          some (.garbled (.garbled e)) := by
        simp only [Decoding.report?, h]
      have hrest : (d.decode ms bytes).rest options.datagrams bytes = [] := by
        simp [Decoding.rest, Decoding.isGarbled, h, hmode]
      obtain ⟨hdecoder, hmessages⟩ := Decoding.next_of_error options.resetOnReset h
      rw [forecast_result hreport, hdecoder, hmessages, hrest]
      dsimp only
      rw [abandon_of_idle (decode_garbled h).1]
      rfl
  | @ok d ms bytes slot hd hbytes h hnext ih =>
    obtain ⟨m, hm⟩ := exists_delivered options.resetOnReset hd h
    have hreport : (d.decode ms bytes).report? options.resetOnReset = some (.message m) := by
      simp only [Decoding.report?, h, hm, Option.elim_some]
    have hrest : (d.decode ms bytes).rest options.datagrams bytes =
        bytes.drop (d.decode ms bytes).consumed := by
      simp [Decoding.rest, Decoding.isGarbled, h]
    rw [forecast_result hreport, readDatagram_ok hbytes h, hrest, ih]
    dsimp only
    rw [hm]
    rfl

def readDatagrams (resetting : Bool) (d : Decoder) (ms : Messages) :
    List (List UInt8) → List Reading
  | [] => []
  | bytes :: later =>
    let reading := d.readDatagram resetting ms bytes
    reading :: readDatagrams resetting reading.decoder reading.slots later

theorem inProgress_readDatagrams (resetting : Bool) {d : Decoder} (hd : d.inProgress = false)
    (ms : Messages) (datagrams : List (List UInt8)) :
    ∀ reading ∈ d.readDatagrams resetting ms datagrams, reading.decoder.inProgress = false := by
  induction datagrams generalizing d ms with
  | nil => exact fun reading hmem => by cases hmem
  | cons bytes datagrams ih =>
    have hnext := inProgress_readDatagram resetting hd ms bytes
    intro reading hmem
    rcases List.mem_cons.1 hmem with rfl | hmem
    · exact hnext
    · exact ih hnext _ reading hmem

end Decoder

/-! ## Reports of messages and of garbled ones -/

namespace Report

def message? : Report → Option Message
  | message m => some m
  | garbled _ | nothing | failed _ => none

def isGarbled : Report → Bool
  | garbled _ => true
  | message _ | nothing | failed _ => false

/-- Whether this tells of a message, complete or not. -/
def isOutcome : Report → Bool
  | message _ | garbled _ => true
  | nothing | failed _ => false

theorem filterMap_outcomes (reports : List Report) :
    (reports.filter isOutcome).filterMap message? = reports.filterMap message? := by
  rw [List.filterMap_filter]
  congr 1
  funext report
  cases report <;> rfl

theorem countP_outcomes (reports : List Report) :
    (reports.filter isOutcome).countP isGarbled = reports.countP isGarbled := by
  rw [List.countP_filter]
  congr 1
  funext report
  cases report <;> rfl

theorem messages_map (ms : List Message) : (ms.map message).filterMap message? = ms := by
  rw [List.filterMap_map]
  exact List.filterMap_some

theorem garbled_map (ms : List Message) : (ms.map message).countP isGarbled = 0 := by
  rw [List.countP_map]
  exact List.countP_eq_zero.2 fun m _ => Bool.false_ne_true

/-- A call takes what it skips and what it answers with from the front. -/
theorem call_split (reports : List Report) :
    ∃ past, reports = past ++ (call reports).2.2 ∧
      past.filterMap message? = Session.handedOver (call reports).1 ∧
      past.countP isGarbled = (call reports).2.1 ∧ (reports ≠ [] → past ≠ []) := by
  induction reports with
  | nil => exact ⟨[], rfl, rfl, rfl, id⟩
  | cons report reports ih =>
    obtain ⟨past, hsplit, hmessages, hgarbled, -⟩ := ih
    cases report with
    | garbled why =>
      refine ⟨.garbled why :: past, ?_, hmessages, ?_, by simp⟩
      · exact congrArg (List.cons _) hsplit
      · rw [List.countP_cons, hgarbled]
        rfl
    | message m => exact ⟨[.message m], rfl, rfl, rfl, by simp⟩
    | nothing => exact ⟨[.nothing], rfl, rfl, rfl, by simp⟩
    | failed reason => exact ⟨[.failed reason], rfl, rfl, rfl, by simp⟩

theorem calls_split (n : Nat) (reports : List Report) :
    ∃ past, reports = past ++ (calls n reports).2.2 ∧
      past.filterMap message? = (calls n reports).1.flatMap Session.handedOver ∧
      past.countP isGarbled = (calls n reports).2.1 ∧
      (reports.length ≤ n → (calls n reports).2.2 = []) := by
  induction n generalizing reports with
  | zero =>
    refine ⟨[], rfl, rfl, rfl, fun hlength => ?_⟩
    exact List.length_eq_zero_iff.1 (Nat.le_zero.1 hlength)
  | succ n ih =>
    obtain ⟨past, hsplit, hmessages, hgarbled, hpast⟩ := call_split reports
    obtain ⟨past', hsplit', hmessages', hgarbled', hend⟩ := ih (call reports).2.2
    refine ⟨past ++ past', ?_, ?_, ?_, fun hlength => hend ?_⟩
    · rw [List.append_assoc]
      exact hsplit.trans (congrArg (past ++ ·) hsplit')
    · rw [List.filterMap_append, hmessages, hmessages']
      rfl
    · rw [List.countP_append, hgarbled, hgarbled']
      rfl
    · by_cases hnil : reports = []
      · rw [hnil]
        exact Nat.zero_le _
      · have hpos := List.length_pos_iff.2 (hpast hnil)
        have hsum := congrArg List.length hsplit
        rw [List.length_append] at hsum
        omega

end Report

namespace Reading

theorem messages_reports (r : Reading) : r.reports.filterMap Report.message? = r.messages := by
  have hcut : (r.cut.toList.map Report.garbled).filterMap Report.message? = [] := by
    cases r.cut <;> rfl
  rw [reports, List.filterMap_append, hcut, List.append_nil, Report.messages_map]

theorem garbled_reports (r : Reading) :
    r.reports.countP Report.isGarbled = if r.cut.isSome then 1 else 0 := by
  rw [reports, List.countP_append, Report.garbled_map, Nat.zero_add]
  cases r.cut <;> rfl

theorem outcomes_reports (r : Reading) : r.reports.filter Report.isOutcome = r.reports := by
  refine List.filter_eq_self.2 fun report hreport => ?_
  rcases List.mem_append.1 hreport with hmem | hmem
  · obtain ⟨m, -, rfl⟩ := List.mem_map.1 hmem
    rfl
  · obtain ⟨why, -, rfl⟩ := List.mem_map.1 hmem
    rfl

theorem messages_flatMap (readings : List Reading) :
    (readings.flatMap reports).filterMap Report.message? = readings.flatMap messages := by
  induction readings with
  | nil => rfl
  | cons r readings ih =>
    rw [List.flatMap_cons, List.filterMap_append, messages_reports, ih, List.flatMap_cons]

theorem garbled_flatMap (readings : List Reading) :
    (readings.flatMap reports).countP Report.isGarbled = readings.countP (·.cut.isSome) := by
  induction readings with
  | nil => rfl
  | cons r readings ih =>
    rw [List.flatMap_cons, List.countP_append, garbled_reports, ih, List.countP_cons, Nat.add_comm]

/-- A part of a datagram's reports that is not all of them tells of its first messages only. -/
theorem reports_part {r : Reading} {past : List Report} (h : past <+: r.reports)
    (hlength : past.length < r.reports.length) :
    past.filterMap Report.message? <+: r.messages ∧ past.countP Report.isGarbled = 0 := by
  have hpast : past <+: r.messages.map Report.message := by
    refine List.prefix_of_prefix_length_le h (List.prefix_append _ _) ?_
    have hcut : r.cut.toList.length ≤ 1 := by cases r.cut <;> simp
    simp only [reports, List.length_append, List.length_map] at hlength ⊢
    omega
  obtain ⟨front, hfront, rfl⟩ := List.prefix_map_iff.1 hpast
  exact ⟨by rwa [Report.messages_map], Report.garbled_map front⟩

/-- A part of all reports tells of the first datagrams in full, and of messages of the next one. -/
theorem flatMap_part {readings : List Reading} {past : List Report}
    (h : past <+: readings.flatMap reports) :
    ∃ k front, front <+: (readings[k]?).elim [] messages ∧
      past.filterMap Report.message? = (readings.take k).flatMap messages ++ front ∧
      past.countP Report.isGarbled = (readings.take k).countP (·.cut.isSome) := by
  induction readings generalizing past with
  | nil =>
    obtain rfl := List.prefix_nil.1 h
    exact ⟨0, [], List.prefix_rfl, rfl, rfl⟩
  | cons r readings ih =>
    rw [List.flatMap_cons] at h
    by_cases hlength : r.reports.length ≤ past.length
    · obtain ⟨past, rfl⟩ := List.prefix_of_prefix_length_le (List.prefix_append _ _) h hlength
      obtain ⟨k, front, hfront, hmessages, hgarbled⟩ := ih ((List.prefix_append_right_inj _).1 h)
      refine ⟨k + 1, front, hfront, ?_, ?_⟩
      · rw [List.filterMap_append, messages_reports, hmessages, List.take_succ_cons,
          List.flatMap_cons, List.append_assoc]
      · rw [List.countP_append, garbled_reports, hgarbled, List.take_succ_cons, List.countP_cons,
          Nat.add_comm]
    · have hpart := List.prefix_of_prefix_length_le h (List.prefix_append _ _) (by omega)
      obtain ⟨hmessages, hgarbled⟩ := reports_part hpart (by omega)
      exact ⟨0, past.filterMap Report.message?, hmessages, rfl, hgarbled⟩

end Reading

def Source.payloads (source : Source) : List (List UInt8) :=
  source.filterMap fun
    | .bytes chunk => some chunk
    | .interrupted | .wouldBlock | .failed _ => none

namespace Decoder

/-- Of a source of datagrams, each of which fits into one read, each is read by itself. -/
theorem outcomes_forecast {options : SessionOptions} (hmode : options.datagrams = true)
    {d : Decoder} (hd : d.inProgress = false) (ms : Messages) {source : Source}
    (hsource : ∀ chunk ∈ source.payloads, chunk.length ≤ maxDatagramBytes) :
    (d.forecast options ms [] (source.arrivals options)).filter Report.isOutcome =
      (d.readDatagrams options.resetOnReset ms source.payloads).flatMap Reading.reports := by
  have hawait (d : Decoder) (hd : d.inProgress = false) (ms : Messages) (arrivals : List Arrival) :=
    @forecast_await options d ms [] arrivals (by rw [decode_nil hd]) fun _ => rfl
  induction source generalizing d ms with
  | nil =>
    rw [show Source.arrivals options [] = [] from rfl, hawait d hd]
    rfl
  | cons event source ih =>
    cases event with
    | interrupted => exact ih hd ms hsource
    | wouldBlock =>
      rw [Source.arrivals_cons, ReadEvent.arrivals]
      split
      · exact ih hd ms hsource
      · rw [List.singleton_append, hawait d hd]
        exact ih hd ms hsource
    | failed reason =>
      rw [Source.arrivals_cons, ReadEvent.arrivals, List.singleton_append, hawait d hd]
      exact ih hd ms hsource
    | bytes chunk =>
      have hfits : chunk.length ≤ maxDatagramBytes := hsource chunk List.mem_cons_self
      have hlater : ∀ chunk ∈ Source.payloads source, chunk.length ≤ maxDatagramBytes :=
        fun chunk hchunk => hsource chunk (List.mem_cons_of_mem _ hchunk)
      have hnext := inProgress_readDatagram options.resetOnReset hd ms chunk
      have hforecast : d.forecast options ms [] (Source.arrivals options (.bytes chunk :: source)) =
          (if chunk.isEmpty then [.nothing] else []) ++
            d.forecast options ms chunk (Source.arrivals options source) := by
        split
        · next hempty =>
          obtain rfl := List.isEmpty_iff.1 hempty
          rw [Source.arrivals_cons, ReadEvent.arrivals, if_pos List.isEmpty_nil,
            List.singleton_append, hawait d hd]
          rfl
        · next hnonempty =>
          have hchunk : chunk ≠ [] := fun hnil => hnonempty (List.isEmpty_iff.2 hnil)
          have hleft : (chunk.drop maxDatagramBytes).isEmpty := by simpa using hfits
          rw [Source.arrivals_datagram hmode hchunk, if_pos hleft, List.take_of_length_le hfits,
            hawait d hd]
          rfl
      rw [hforecast, forecast_datagram hmode hd, List.filter_append, List.filter_append,
        Reading.outcomes_reports, ih hnext _ hlater]
      split <;> rfl

end Decoder

namespace Session

/--
Datagram after datagram, a session hands over the messages that are complete before one that is
garbled or incomplete, and goes on with the next datagram. Once enough calls are made all of them
have been read. Each is begun between two messages, and nothing behind a garbled one matters.
-/
theorem receive_datagrams (set : TemplateSet) (source : Source) (options : SessionOptions)
    (hmode : options.datagrams = true)
    (hsource : ∀ chunk ∈ source.payloads, chunk.length ≤ maxDatagramBytes) :
    let s := create set source options
    let readings :=
      Decoder.fresh.readDatagrams options.resetOnReset set.messages source.payloads
    (∀ n, ∃ k front, front <+: (readings[k]?).elim [] Reading.messages ∧
      (receiveTimes n s).1.flatMap handedOver =
        (readings.take k).flatMap Reading.messages ++ front ∧
      (receiveTimes n s).2.stats.garbled = .ofNat ((readings.take k).countP (·.cut.isSome))) ∧
    (∃ calls, ∀ n, calls ≤ n →
      (receiveTimes n s).1.flatMap handedOver = readings.flatMap Reading.messages ∧
      (receiveTimes n s).2.stats.garbled = .ofNat (readings.countP (·.cut.isSome))) ∧
    (∀ reading ∈ readings, reading.decoder.inProgress = false) ∧
    ∀ (d : Decoder) (ms : Messages) (bytes more : List UInt8) (e : DecodeError),
      d.inProgress = false →
      (d.readDatagram options.resetOnReset ms bytes).cut = some (.garbled e) →
      d.readDatagram options.resetOnReset ms
        (bytes.take (d.readDatagram options.resetOnReset ms bytes).used ++ more) =
          d.readDatagram options.resetOnReset ms bytes := by
  intro s readings
  have hexpects := expects_create set source options
  have hidle : Decoder.fresh.inProgress = false := rfl
  have houtcomes := Decoder.outcomes_forecast hmode hidle set.messages hsource
  generalize hreports : Decoder.fresh.forecast options set.messages [] (source.arrivals options) =
    reports at hexpects houtcomes
  -- So many calls take a part of the readings, once reads that brought nothing are left out.
  have hcalls (n : Nat) : ∃ past later, readings.flatMap Reading.reports = past ++ later ∧
      (receiveTimes n s).1.flatMap handedOver = past.filterMap Report.message? ∧
      (receiveTimes n s).2.stats.garbled = .ofNat (past.countP Report.isGarbled) ∧
      (reports.length ≤ n → later = []) := by
    obtain ⟨past, hsplit, hmessages, hgarbled, hend⟩ := Report.calls_split n reports
    obtain ⟨hanswers, -, hcounted⟩ := hexpects.receiveTimes n
    refine ⟨past.filter Report.isOutcome, (Report.calls n reports).2.2.filter Report.isOutcome,
      ?_, ?_, ?_, fun hn => ?_⟩
    · rw [← List.filter_append, ← hsplit]
      exact houtcomes.symm
    · rw [hanswers, ← hmessages, Report.filterMap_outcomes]
    · rw [hcounted, Report.countP_outcomes, hgarbled]
      exact UInt64.zero_add _
    · rw [hend hn]
      rfl
  refine ⟨fun n => ?_, ⟨reports.length, fun n hn => ?_⟩,
    Decoder.inProgress_readDatagrams _ hidle _ _,
    fun d ms bytes more e hd hcut => Decoder.readDatagram_take hd hcut more⟩
  · obtain ⟨past, later, hsplit, hmessages, hgarbled, -⟩ := hcalls n
    have hpast : past <+: readings.flatMap Reading.reports := ⟨later, hsplit.symm⟩
    obtain ⟨k, front, hfront, hhanded, hcount⟩ := Reading.flatMap_part hpast
    exact ⟨k, front, hfront, hmessages.trans hhanded, by rw [hgarbled, hcount]⟩
  · obtain ⟨past, later, hsplit, hmessages, hgarbled, hend⟩ := hcalls n
    rw [hend hn, List.append_nil] at hsplit
    rw [hmessages, hgarbled, ← hsplit, Reading.messages_flatMap, Reading.garbled_flatMap]
    exact ⟨rfl, rfl⟩

/-- Two ticks, one that is cut, a tick again, an unknown template with a tick behind it, a tick. -/
def cutTicks : Source := [
  .bytes [0xE0, 0x81, 0x85, 0x80], .interrupted, .bytes [0xE0, 0x81], .wouldBlock, .bytes [0x80],
  .bytes [0xC0, 0x83, 0x80], .bytes [0xA0, 0x86]]

theorem receive_datagrams_cut :
    let set : TemplateSet := ⟨[{ id := 1, name := "Tick", fields := [
      .scalar { name := "Size", id := 271, kind := .uint, op := .copy }] }], rfl⟩
    let s := create set cutTicks { datagrams := true }
    let readings := Decoder.fresh.readDatagrams true set.messages cutTicks.payloads
    (∀ chunk ∈ cutTicks.payloads, chunk.length ≤ maxDatagramBytes) ∧
      readings.map (fun r => (r.messages.length, r.used)) =
        [(2, 4), (0, 2), (1, 1), (0, 2), (1, 2)] ∧
      readings.countP (·.cut.isSome) = 2 ∧
      ∃ calls, ∀ n, calls ≤ n →
        (receiveTimes n s).1.flatMap handedOver = readings.flatMap Reading.messages ∧
        (receiveTimes n s).2.stats.garbled = .ofNat (readings.countP (·.cut.isSome)) := by
  intro set s readings
  have hsource : ∀ chunk ∈ cutTicks.payloads, chunk.length ≤ maxDatagramBytes := by decide
  have hreceive := receive_datagrams set cutTicks { datagrams := true } rfl hsource
  exact ⟨hsource, by decide +kernel, by decide +kernel, hreceive.2.1⟩

end Session

end MarketFeed
