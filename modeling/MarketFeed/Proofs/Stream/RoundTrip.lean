import MarketFeed.Proofs.Message.Filling
import MarketFeed.Proofs.Stream.Chunks
import MarketFeed.Proofs.Template
import MarketFeed.Stream.Encoder

/-!
# What was sent is what arrives

An encoder and a decoder whose messages agree stay in step: what the one encodes the other decodes
into the same slot, with the same values, and their messages agree again. From messages fresh from
one set of templates this carries through any sequence that could be sent.
-/

namespace MarketFeed

/-- A message that was sent: its slot, as it was filled, its bytes, and what the sender has then. -/
structure Sent where
  slot : Nat
  message : Message
  bytes : List UInt8
  after : Messages

/-- Fills and encodes one message after another, `none` if one of them cannot be sent. -/
def Encoder.sendAll (enc : Encoder) (ms : Messages) : List (Nat × List Filling) → Option (List Sent)
  | [] => some []
  | (slot, steps) :: script =>
    match ms[slot]? with
    | none => none
    | some m =>
      let e := enc.encode (m.fill steps)
      match e.result with
      | .error _ => none
      | .ok bytes =>
        let after := ms.set slot e.message
        (e.encoder.sendAll after script).map (⟨slot, m.fill steps, bytes, after⟩ :: ·)

/-- The presence map that the fields of a message are written into. -/
def Encoder.start (enc : Encoder) (m : Message) : PresenceMap :=
  if enc.lastId = some m.id then .empty else .first

theorem Encoder.encode_eq (enc : Encoder) (m : Message) :
    enc.encode m =
      match m.write (enc.start m) with
      | (.error e, m') => ⟨.error e, enc, m'⟩
      | (.ok (map, bytes), m') =>
        ⟨.ok (map.write ++ (if enc.lastId = some m.id then [] else writeUInt m.id.toUInt64) ++ bytes),
          { lastId := if m'.resets then none else some m'.id }, m'⟩ := by
  rcases hwrite : m.write (enc.start m) with ⟨result, m'⟩
  unfold start at hwrite
  by_cases hid : enc.lastId = some m.id
  · rw [if_pos hid] at hwrite
    cases result <;> simp only [encode, if_pos hid, hwrite]
  · rw [if_neg hid] at hwrite
    cases result <;> simp only [encode, if_neg hid, hwrite]

/-- Both sides of a relation can change at one place if they are related there. -/
theorem forall₂_set {α β : Type} {R : α → β → Prop} {xs : List α} {ys : List β}
    (h : List.Forall₂ R xs ys) {x : α} {y : β} (hxy : R x y) (k : Nat) :
    List.Forall₂ R (xs.set k x) (ys.set k y) := by
  induction h generalizing k with
  | nil => simp
  | cons hab h ih =>
    cases k with
    | zero => exact .cons hxy h
    | succ k => exact .cons hab (ih k)

theorem exists_of_forall₂ {α β : Type} {R : α → β → Prop} {xs : List α} {ys : List β}
    (h : List.Forall₂ R xs ys) {k : Nat} {x : α} (hx : xs[k]? = some x) :
    ∃ y, ys[k]? = some y ∧ R x y := by
  induction h generalizing k with
  | nil => simp at hx
  | @cons a b xs ys hab h ih =>
    cases k with
    | zero =>
      obtain rfl := Option.some.inj hx
      exact ⟨b, rfl, hab⟩
    | succ k => exact ih hx

/-- A decoding delivers what was sent, uses just its bytes, and leaves both sides in agreement. -/
structure Decoding.Delivers (r : Decoding) (s : Sent) : Prop where
  result : r.result = .ok s.slot
  consumed : r.consumed = s.bytes.length
  message : ∃ m, r.messages[s.slot]? = some m ∧ s.message.Conveys m
  agrees : List.Forall₂ Message.Agrees s.after r.messages

namespace Decoder

/-- An encoder and a decoder with their messages, both between two messages and in agreement. -/
structure InStep (enc : Encoder) (ms : Messages) (d : Decoder) (rs : Messages) : Prop where
  sound : ∀ m ∈ ms, m.Sound
  rectangular : ∀ r ∈ rs, r.Rectangular
  agrees : List.Forall₂ Message.Agrees ms rs
  nodup : (rs.map Message.id).Nodup
  idle : d.stage = .idle
  last : enc.lastId = d.lastTemplateId rs

variable {ms rs : Messages} {d : Decoder} {enc : Encoder}

theorem slot?_of_nodup (h : (rs.map Message.id).Nodup) {slot : Nat} {r : Message}
    (hr : rs[slot]? = some r) : rs.slot? r.id = some slot := by
  obtain ⟨hlt, rfl⟩ := List.getElem?_eq_some_iff.1 hr
  rw [Messages.slot?, List.findIdx?_eq_some_iff_getElem]
  refine ⟨hlt, by simp, fun j hj => ?_⟩
  rw [Bool.not_eq_true, beq_eq_false_iff_ne]
  intro heq
  have := List.pairwise_iff_getElem.1 h j slot (by simp; omega) (by simpa using hlt) hj
  simp only [List.getElem_map] at this
  exact this heq

/-- The start of a message tells its slot: by the id, or by the lack of one. -/
theorem readSlot_takes (h : InStep enc ms d rs) {slot : Nat} {r : Message}
    (hr : rs[slot]? = some r) {sent : PresenceMap}
    (hsent : sent.isSet 0 = decide (enc.lastId ≠ some r.id)) :
    (d.readSlot rs sent).Takes
      (if enc.lastId = some r.id then [] else writeUInt r.id.toUInt64) slot := by
  unfold readSlot
  rw [hsent]
  by_cases hid : enc.lastId = some r.id
  · rw [if_pos hid, if_neg (by simp [hid])]
    have hlast := h.last.symm.trans hid
    obtain ⟨r', hr', heq⟩ := Option.map_eq_some_iff.1 hlast
    obtain ⟨last, hlast, hr'⟩ := Option.bind_eq_some_iff.1 hr'
    -- No other slot has a message of this id.
    have hslot : last = slot := by
      have h₁ := slot?_of_nodup h.nodup hr'
      rw [heq, slot?_of_nodup h.nodup hr] at h₁
      exact (Option.some.inj h₁).symm
    rw [hlast, hslot]
    exact .pure slot
  · rw [if_neg hid, if_pos (by simp [hid])]
    refine (writeUInt_takes r.id.toUInt64).bind_nil ?_
    have hlt : r.id.toUInt64.toNat < 0x100000000 := by
      rw [UInt32.toNat_toUInt64]
      exact r.id.toNat_lt
    rw [if_pos hlt, UInt32.toUInt32_toUInt64, slot?_of_nodup h.nodup hr]
    exact .pure slot

theorem encode_eq_ok {m : Message} {bytes : List UInt8} (h : (enc.encode m).result = .ok bytes) :
    ∃ map body items, m.write (enc.start m) = (.ok (map, body), { m with items }) ∧
      bytes = map.write ++ ((if enc.lastId = some m.id then [] else writeUInt m.id.toUInt64) ++ body) ∧
      (enc.encode m).message = { m with items } ∧
      (enc.encode m).encoder.lastId = if m.resets then none else some m.id := by
  rw [Encoder.encode_eq] at h ⊢
  rcases hw : m.write (enc.start m) with ⟨written, m'⟩
  rw [hw] at h
  cases written with
  | error e => cases h
  | ok written =>
    obtain ⟨map, body⟩ := written
    obtain ⟨items, -, rfl⟩ := Message.write_eq_ok hw
    exact ⟨map, body, items, rfl, by rw [← Except.ok.inj h, List.append_assoc], rfl, rfl⟩

/-- The start of the map, and what the fields may still set in it. -/
theorem clearFrom_start (enc : Encoder) (m : Message) :
    (enc.start m).ClearFrom 1 ∧ (enc.start m).isSet 0 = decide (enc.lastId ≠ some m.id) := by
  unfold Encoder.start
  split
  · next h => exact ⟨fun _ _ => rfl, by simp [h]⟩
  · next h =>
    refine ⟨fun bit hbit => ?_, by simp [h, PresenceMap.isSet_first]⟩
    rw [PresenceMap.isSet_first]
    exact beq_false_of_ne (by omega)

/-- Bit 0 of the map of a message tells whether the template id stands behind it. -/
theorem isSet_zero_of_write {m m' : Message} (hm : m.Sound) {map : PresenceMap} {body : List UInt8}
    (hw : m.write (enc.start m) = (.ok (map, body), m')) :
    map.isSet 0 = decide (enc.lastId ≠ some m.id) := by
  obtain ⟨hclear, hfirst⟩ := clearFrom_start enc m
  obtain ⟨items, hitems, -⟩ := Message.write_eq_ok hw
  rw [Item.clearFrom_writeAll hm.items hitems hm.bits hclear 0 (by decide), hfirst]

/-- The map, the id if there is one, and a body that is read back make a call that delivers. -/
theorem InStep.decode_message (h : InStep enc ms d rs) {slot : Nat} {r r' : Message}
    (hr : rs[slot]? = some r) {map : PresenceMap}
    (hbit : map.isSet 0 = decide (enc.lastId ≠ some r.id)) {body : List UInt8}
    (hread : Completes (r.read map.received {}) body r') (rest : List UInt8) :
    d.decode rs ((map.write ++
        ((if enc.lastId = some r.id then [] else writeUInt r.id.toUInt64) ++ body)) ++ rest) =
      ⟨.ok slot, ⟨.idle, if r'.resets then none else some slot⟩, rs.set slot r',
        (map.write ++ ((if enc.lastId = some r.id then [] else writeUInt r.id.toUInt64) ++
          body)).length⟩ := by
  rw [← PresenceMap.isSet_received] at hbit
  have hfill : Completes (fun bytes => (d.fill rs map.received slot {} bytes).progress) body
      (if r'.resets then none else some slot, rs.set slot r', slot) := by
    rw [funext (progress_fill hr map.received {}), ← List.append_nil body]
    exact .andThen hread (.finished _) _ _
  have hcall : Completes (resumeFrom (d.lastSlot, rs, 0) d.stage)
      (map.write ++ ((if enc.lastId = some r.id then [] else writeUInt r.id.toUInt64) ++ body))
      (if r'.resets then none else some slot, rs.set slot r', slot) := by
    have hstart := readSlot_takes h hr hbit
    rw [h.idle, progress_resume_idle]
    refine .afterToken map.write_takes ?_ _ _
    obtain ⟨stage, lastSlot⟩ := d
    obtain rfl := h.idle
    rw [progress_afterMap]
    exact .afterToken hstart hfill _ _
  rw [decode_eq, hcall rest, decodingOf_done]

/-- Messages that agree in the end keep the sides in step. -/
theorem InStep.set (h : InStep enc ms d rs) {slot : Nat} {m' r r' : Message}
    (hr : rs[slot]? = some r) (hid : r'.id = r.id) (hsound : m'.Sound) (hrect : r'.Rectangular)
    (hagree : m'.Agrees r') {enc' : Encoder}
    (hlast : enc'.lastId = if m'.resets then none else some m'.id) :
    InStep enc' (ms.set slot m') ⟨.idle, if r'.resets then none else some slot⟩
      (rs.set slot r') := by
  refine ⟨?_, ?_, ?_, ?_, rfl, ?_⟩
  · intro m'' hm''
    rcases List.mem_or_eq_of_mem_set hm'' with hm'' | rfl
    · exact h.sound m'' hm''
    · exact hsound
  · intro r'' hr''
    rcases List.mem_or_eq_of_mem_set hr'' with hr'' | rfl
    · exact h.rectangular r'' hr''
    · exact hrect
  · exact forall₂_set h.agrees hagree slot
  · have hids : (rs.set slot r').map Message.id = rs.map Message.id := by
      obtain ⟨hlt, rfl⟩ := List.getElem?_eq_some_iff.1 hr
      have hlt' : slot < (rs.map Message.id).length := by simpa using hlt
      have hid' : r'.id = (rs.map Message.id)[slot] := by rw [List.getElem_map, hid]
      rw [List.map_set, hid', List.set_getElem_self]
    rw [hids]
    exact h.nodup
  · rw [hlast, ← hagree.resets, lastTemplateId]
    have hget : (rs.set slot r')[slot]? = some r' :=
      List.getElem?_set_self (List.getElem?_eq_some_iff.1 hr).1
    split
    · rfl
    · rw [Option.bind_some, hget, Option.map_some, hagree.id]

/-- What one side encodes the other one decodes, whatever follows, and both stay in step. -/
theorem decode_encode (h : InStep enc ms d rs) {slot : Nat} {m r : Message}
    (hr : rs[slot]? = some r) (hm : m.Sound) (hagree : m.Agrees r) (hs : m.Sendable)
    {bytes : List UInt8} (hbytes : (enc.encode m).result = .ok bytes) :
    ∃ r', m.Conveys r' ∧
      (∀ rest, d.decode rs (bytes ++ rest) = ⟨.ok slot,
        ⟨.idle, if r'.resets then none else some slot⟩, rs.set slot r', bytes.length⟩) ∧
      InStep (enc.encode m).encoder (ms.set slot (enc.encode m).message)
        ⟨.idle, if r'.resets then none else some slot⟩ (rs.set slot r') := by
  obtain ⟨map, body, items, hwrite, rfl, hmessage, hlast⟩ := encode_eq_ok hbytes
  obtain ⟨r', hread, hagree', hrect, hconveys⟩ := hagree.read_completes hm
    (h.rectangular r (List.mem_of_getElem? hr)) hs (clearFrom_start enc m).1 hwrite
    map.isSet_received
  have hbit := isSet_zero_of_write hm hwrite
  have hsound := hm.write (enc.start m)
  rw [hwrite] at hsound
  rw [hmessage]
  refine ⟨r', hconveys, fun rest => ?_,
    h.set hr (hagree'.id.trans hagree.id.symm) hsound hrect hagree' hlast⟩
  rw [← hagree.id] at hbit ⊢
  exact h.decode_message hr hbit hread rest

/-! ## Whole streams -/

theorem InStep.drain_nil (h : InStep enc ms d rs) : d.drain rs [] = ⟨[], d, rs, []⟩ := by
  obtain ⟨stage, lastSlot⟩ := d
  obtain rfl := h.idle
  exact (underway_idle lastSlot rs).drain_nil

/-- What is sent first is delivered first, and the sides are in step for what follows. -/
theorem InStep.drain_encode (h : InStep enc ms d rs) {slot : Nat} {m r : Message}
    (hr : rs[slot]? = some r) (hm : m.Sound) (hagree : m.Agrees r) (hs : m.Sendable)
    {bytes : List UInt8} (hbytes : (enc.encode m).result = .ok bytes) :
    ∃ call d' rs', call.Delivers ⟨slot, m, bytes, ms.set slot (enc.encode m).message⟩ ∧
      InStep (enc.encode m).encoder (ms.set slot (enc.encode m).message) d' rs' ∧
      ∀ rest, d.drain rs (bytes ++ rest) = (d'.drain rs' rest).push call := by
  obtain ⟨r', hconveys, hdecode, hnext⟩ := decode_encode h hr hm hagree hs hbytes
  have hget : (rs.set slot r')[slot]? = some r' :=
    List.getElem?_set_self (List.getElem?_eq_some_iff.1 hr).1
  refine ⟨⟨.ok slot, ⟨.idle, if r'.resets then none else some slot⟩, rs.set slot r', bytes.length⟩,
    _, _, ⟨rfl, rfl, ⟨r', hget, hconveys⟩, hnext.agrees⟩, hnext, fun rest => ?_⟩
  rw [drain_push (by rw [hdecode rest]; simp), hdecode rest, List.drop_left]

/-- Sides in step stay so over all that is sent, and every message is delivered. -/
theorem InStep.drain_sendAll (h : InStep enc ms d rs) {script : List (Nat × List Filling)}
    {sent : List Sent} (hsent : enc.sendAll ms script = some sent)
    (hs : ∀ s ∈ sent, s.message.Sendable) :
    List.Forall₂ Decoding.Delivers (d.drain rs (sent.flatMap Sent.bytes)).decodings sent ∧
      (d.drain rs (sent.flatMap Sent.bytes)).rest = [] := by
  induction script generalizing enc ms d rs sent with
  | nil =>
    obtain rfl := Option.some.inj hsent
    rw [List.flatMap_nil, h.drain_nil]
    exact ⟨.nil, rfl⟩
  | cons step script ih =>
    obtain ⟨slot, steps⟩ := step
    unfold Encoder.sendAll at hsent
    split at hsent
    · cases hsent
    · next m hm =>
      dsimp only at hsent
      split at hsent
      · cases hsent
      · next bytes hbytes =>
        obtain ⟨later, hlater, rfl⟩ := Option.map_eq_some_iff.1 hsent
        obtain ⟨r, hr, hagree⟩ := exists_of_forall₂ h.agrees hm
        obtain ⟨call, d', rs', hcall, hnext, hdrain⟩ := h.drain_encode hr
          ((h.sound m (List.mem_of_getElem? hm)).fill steps) (hagree.fill steps)
          (hs _ List.mem_cons_self) hbytes
        obtain ⟨hdelivers, hrest⟩ := ih hnext hlater fun s hs' => hs s (List.mem_cons_of_mem _ hs')
        rw [List.flatMap_cons, hdrain]
        exact ⟨.cons hcall hdelivers, hrest⟩

theorem inStep_fresh (set : TemplateSet) : InStep .fresh set.messages .fresh set.messages where
  sound := set.sound_messages
  rectangular := set.rectangular_messages
  agrees := set.agrees_messages
  nodup := set.nodup_messages
  idle := rfl
  last := rfl

/--
Whatever sequence of messages a fresh encoder could send, a fresh decoder delivers from its bytes,
message for message.
-/
theorem drain_of_sendAll (set : TemplateSet) {script : List (Nat × List Filling)} {sent : List Sent}
    (hsent : Encoder.fresh.sendAll set.messages script = some sent)
    (hs : ∀ s ∈ sent, s.message.Sendable) :
    List.Forall₂ Decoding.Delivers
        (Decoder.fresh.drain set.messages (sent.flatMap Sent.bytes)).decodings sent ∧
      (Decoder.fresh.drain set.messages (sent.flatMap Sent.bytes)).rest = [] :=
  (inStep_fresh set).drain_sendAll hsent hs

/-- A template with a counter, a constant, and rows that repeat each other. -/
def quotes : TemplateSet where
  templates := [{ id := 7, name := "Quote", fields := [
    .scalar { name := "MsgSeqNum", id := 34, kind := .uint, op := .increment },
    .scalar {
      name := "Venue", id := 207, kind := .unicode, op := .constant, init := some (.bytes [88]) },
    .group { name := "Entries", id := 268, kind := .sequence }
      (.scalar { name := "NoEntries", id := 268, kind := .uint })
      [.scalar { name := "Size", id := 271, kind := .uint, op := .copy },
        .scalar { name := "Px", id := 270, kind := .int, op := .delta, presence := .optional }]] }]
  accepted := rfl

/-- Two quotes of two rows each, the second of which repeats the size and has no price. -/
def quoteScript : List (Nat × List Filling) :=
  let quote (n : UInt64) : List Filling := [
    .entry "MsgSeqNum" fun _ => .assigned (.uint n), .length "Entries" 2,
    .row "Entries" 0 [fun _ => .assigned (.uint 10), fun _ => .assigned (.int 500)],
    .row "Entries" 1 [fun _ => .assigned (.uint 10), Entry.emptied]]
  [(0, quote 1), (0, quote 2)]

theorem drain_of_sendAll_quotes :
    let sent := (Encoder.fresh.sendAll quotes.messages quoteScript).getD []
    sent.map Sent.bytes =
        [[224, 135, 129, 130, 192, 138, 3, 245, 128, 128], [128, 130, 128, 129, 128, 128]] ∧
      Encoder.fresh.sendAll quotes.messages quoteScript = some sent ∧
      (∀ s ∈ sent, s.message.Sendable) ∧
      List.Forall₂ Decoding.Delivers
        (Decoder.fresh.drain quotes.messages (sent.flatMap Sent.bytes)).decodings sent ∧
      (Decoder.fresh.drain quotes.messages (sent.flatMap Sent.bytes)).rest = [] := by
  intro sent
  have hsent : Encoder.fresh.sendAll quotes.messages quoteScript = some sent := rfl
  have hs : ∀ s ∈ sent, s.message.Sendable := by decide
  exact ⟨rfl, hsent, hs, drain_of_sendAll quotes hsent hs⟩

end Decoder

end MarketFeed
