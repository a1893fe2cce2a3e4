import MarketFeed.Proofs.Message.Relay
import MarketFeed.Proofs.Stream.RoundTrip

/-!
# What was decoded can be relayed

A relay copies every message that it decodes to an encoder of its own. Whatever the bytes were, as
long as none of them is garbled, the encoder can send every message, in no more bytes than it came
in, and whoever decodes what was sent is left with the very same slots: `Decoder.drain_of_relayAll`.
-/

namespace MarketFeed

/-- Copies decoded messages one after another and encodes them, `none` if one cannot be sent. -/
def Encoder.relayAll (enc : Encoder) (ms : Messages) : List Decoding → Option (List Sent)
  | [] => some []
  | call :: calls =>
    match call.result with
    | .error _ => none
    | .ok slot =>
      match ms[slot]?, call.messages[slot]? with
      | some m, some r =>
        let copy := m.copyFrom r
        let e := enc.encode copy
        match e.result with
        | .error _ => none
        | .ok bytes =>
          let after := ms.set slot e.message
          (e.encoder.relayAll after calls).map (⟨slot, copy, bytes, after⟩ :: ·)
      | _, _ => none

/-! ## Accepted sets -/

namespace Template

variable {t : Template}

theorem typed_of_checkDecl {d : Decl} (h : t.checkDecl d = .ok ()) (bit : Option Nat) :
    (Field.fresh d bit).Typed := fun hkind =>
  have hvalid : d.Valid := valid_of_checkDecl h hkind
  ⟨hvalid.initial, hvalid.init⟩

end Template

theorem FieldSpec.toItem_typed {t : Template} {s : FieldSpec} (h : t.checkSpec s = .ok ())
    (bit : Option Nat) : (s.toItem bit).Typed := by
  cases s with
  | scalar d =>
    obtain ⟨⟨⟩, hdecl, -⟩ := Except.bind_eq_ok h
    exact Template.typed_of_checkDecl hdecl bit
  | group d length row =>
    obtain ⟨-, hlength, hrow⟩ := Template.checkSpec_group h
    refine ⟨Template.typed_of_checkDecl hlength bit, fun f hf => ?_⟩
    obtain ⟨p, hp, rfl⟩ := List.mem_map.1 hf
    exact Template.typed_of_checkDecl (hrow p.1 (mem_of_mem_assignBits hp)).2 p.2

theorem TemplateSet.typed_messages (set : TemplateSet) : ∀ m ∈ set.messages, m.Typed := by
  intro m hm
  obtain ⟨t, ht, rfl⟩ := List.mem_map.1 hm
  intro i hi
  obtain ⟨p, hp, rfl⟩ := List.mem_map.1 hi
  exact FieldSpec.toItem_typed (Template.checkSpec_of_validate
    ((checkFrom_eq_ok set.checkFrom_templates).1 t ht).1 p.1
    (FieldSpec.mem_of_mem_assignBits hp)) p.2

namespace Decoder

variable {ms rs : Messages} {d : Decoder} {enc : Encoder}

/-! ## One message -/

/-- A call that delivers has read a map, perhaps an id, and the fields of the message. -/
theorem decode_eq_ok (hidle : d.stage = .idle) {buffer : List UInt8} {slot : Nat}
    (h : (d.decode rs buffer).result = .ok slot) :
    ∃ map front back rest r r', PresenceMap.read buffer = .done map front ∧
      d.readSlot rs map front = .done slot back ∧ rs[slot]? = some r ∧
      r.read map {} back = ⟨r', .done, rest⟩ ∧
      d.decode rs buffer = ⟨.ok slot, ⟨.idle, if r'.resets then none else some slot⟩,
        rs.set slot r', buffer.length - rest.length⟩ := by
  rw [decode_eq] at h ⊢
  rcases hp : resumeFrom (d.lastSlot, rs, 0) d.stage buffer with ⟨s, ending, rest⟩
  rw [hp] at h
  cases ending with
  | dry stage => cases h
  | garbled e => cases h
  | done =>
    obtain ⟨stage, lastSlot⟩ := d
    obtain rfl : stage = .idle := hidle
    rw [progress_resume_idle] at hp
    obtain ⟨map, front, hmap, hp⟩ := Progress.afterToken_eq_done hp
    have hp := (congrFun (progress_afterMap ⟨.idle, lastSlot⟩ rs map) front).symm.trans hp
    obtain ⟨slot', back, hslot, hp⟩ := Progress.afterToken_eq_done hp
    cases hr : rs[slot']? with
    | none =>
      rw [progress_fill_none hr] at hp
      cases hp
    | some r =>
      rw [progress_fill hr] at hp
      obtain ⟨r', rest', hread, hp⟩ := Progress.andThen_eq_done hp
      obtain ⟨rfl, -, rfl⟩ := Progress.mk.inj hp
      obtain rfl : slot' = slot := Except.ok.inj h
      exact ⟨map, front, back, rest', r, r', hmap, hslot, hr, hread, rfl⟩

theorem id_of_slot? {id : UInt32} {slot : Nat} (h : rs.slot? id = some slot) {r : Message}
    (hr : rs[slot]? = some r) : r.id = id := by
  rw [Messages.slot?, List.findIdx?_eq_some_iff_getElem] at h
  obtain ⟨hlt, hid, -⟩ := h
  rw [List.getElem?_eq_getElem hlt] at hr
  rw [← Option.some.inj hr]
  simpa using hid

/-- Where a message has to name its template, the one that was decoded did as well. -/
theorem InStep.readSlot_costs (h : InStep enc ms d rs) (map : PresenceMap) :
    (d.readSlot rs map).Costs fun slot n => ∀ r, rs[slot]? = some r →
      (if enc.lastId = some r.id then [] else writeUInt r.id.toUInt64).length ≤ n ∧
        (enc.lastId ≠ some r.id → map.isSet 0 = true) := by
  refine .ite (fun hset => ?_) fun hunset => ?_
  · refine readUInt_costs.bind fun id n hn => .ite (fun hsmall => ?_) fun _ => .fail _
    cases hslot : rs.slot? id.toUInt32 with
    | none => exact .fail _
    | some slot =>
      refine .pure fun r hr => ⟨?_, fun _ => hset⟩
      have hid : r.id.toUInt64 = id := by
        rw [id_of_slot? hslot hr, ← UInt64.toNat_inj, UInt32.toNat_toUInt64, UInt64.toNat_toUInt32]
        omega
      rw [hid]
      split
      · exact Nat.zero_le _
      · exact hn
  · cases hslot : d.lastSlot with
    | none => exact .fail _
    | some slot =>
      refine .pure fun r hr => ?_
      have hlast : enc.lastId = some r.id := by
        rw [h.last, lastTemplateId, hslot, Option.bind_some, hr, Option.map_some]
      rw [if_pos hlast]
      exact ⟨Nat.le_refl 0, fun hne => absurd hlast hne⟩

/-- The encoder sets bit 0 only if the message came with an id. -/
theorem start_within {m : Message} {map : PresenceMap}
    (h : enc.lastId ≠ some m.id → map.isSet 0 = true) : (enc.start m).Within map := by
  intro i hi
  unfold Encoder.start at hi
  split at hi
  · cases hi
  · next hne =>
    rw [PresenceMap.isSet_first, beq_iff_eq] at hi
    rw [hi]
    exact h hne

/-- What a call has delivered is copied, encoded, and delivered by another call again. -/
theorem InStep.relay_decode (h : InStep enc ms d rs) (ht : ∀ r ∈ rs, r.Typed)
    {buffer : List UInt8} {call : Decoding} (hcall : d.decode rs buffer = call) {slot : Nat}
    (hok : call.result = .ok slot) :
    ∃ m r e bytes, ms[slot]? = some m ∧ call.messages[slot]? = some r ∧
      enc.encode (m.copyFrom r) = e ∧ e.result = .ok bytes ∧ bytes.length ≤ call.consumed ∧
      (∀ rest, d.decode rs (bytes ++ rest) = { call with consumed := bytes.length }) ∧
      InStep e.encoder (ms.set slot e.message) call.decoder call.messages ∧
      ∀ r ∈ call.messages, r.Typed := by
  rw [← hcall] at hok
  obtain ⟨map, front, back, rest, r, r', hmap, hslot, hr, hread, hdecode⟩ :=
    decode_eq_ok h.idle hok
  obtain rfl := hdecode.symm.trans hcall
  have hmem := List.mem_of_getElem? hr
  obtain ⟨m, hm, hagree⟩ := exists_of_forall₂ h.agrees.flip hr
  obtain ⟨n₁, hn₁, hgroups⟩ := PresenceMap.read_costs.of_done hmap
  obtain ⟨n₂, hn₂, hid⟩ := (h.readSlot_costs map).of_done hslot
  obtain ⟨hid, hbit⟩ := hid r hr
  have hwithin : (enc.start m).Within map := start_within (hagree.id ▸ hbit)
  obtain ⟨hsound, marked, written, m', hwrite, hlength, hwithin', hagree', ht', hrect,
    hcompletes⟩ := hagree.relays (h.sound m (List.mem_of_getElem? hm)) (ht r hmem)
      (h.rectangular r hmem) hread (clearFrom_start enc m).1 hwithin
  have hwrite : (m.copyFrom r').write (enc.start (m.copyFrom r')) = (.ok (marked, written), m') :=
    hwrite
  have hsound' := hsound.write (enc.start (m.copyFrom r'))
  have hset := isSet_zero_of_write hsound hwrite
  rw [hwrite] at hsound'
  have hid' : (m.copyFrom r').id = r.id := hagree.id.symm
  have hmessage : m'.id = r.id := by
    obtain ⟨items, -, rfl⟩ := Message.write_eq_ok hwrite
    exact hid'
  rw [hid'] at hset
  refine ⟨m, r', _, marked.write ++
      ((if enc.lastId = some r.id then [] else writeUInt r.id.toUInt64) ++ written), hm,
    List.getElem?_set_self (List.getElem?_eq_some_iff.1 hr).1, rfl, ?_, ?_, fun more => ?_, ?_,
    fun r'' hr'' => ?_⟩
  · rw [Encoder.encode_eq, hwrite, hid']
    dsimp only
    rw [List.append_assoc]
  · have := hwithin'.length_write_le hgroups
    simp only [List.length_append]
    omega
  · exact h.decode_message hr hset (hcompletes _ marked.isSet_received) more
  · rw [Encoder.encode_eq, hwrite]
    exact h.set hr (hagree'.id.trans hmessage) hsound' hrect hagree' rfl
  · rcases List.mem_or_eq_of_mem_set hr'' with hr'' | rfl
    · exact ht r'' hr''
    · exact ht'

/-! ## Whole streams -/

/--
Sides in step stay so over all that is relayed, and what is sent leaves a decoder with the same
messages after each call.
-/
theorem InStep.drain_relayAll (h : InStep enc ms d rs) (ht : ∀ r ∈ rs, r.Typed)
    (buffer : List UInt8)
    (hok : ∀ call ∈ (d.drain rs buffer).decodings, ∀ e, call.result ≠ .error (.garbled e)) :
    ∃ sent, enc.relayAll ms (d.drain rs buffer).decodings = some sent ∧
      List.Forall₂ (fun call s => s.bytes.length ≤ call.consumed)
        (d.drain rs buffer).decodings sent ∧
      (d.drain rs (sent.flatMap Sent.bytes)).view.1 = (d.drain rs buffer).view.1 ∧
      (d.drain rs (sent.flatMap Sent.bytes)).rest = [] := by
  have hu : Underway d rs := by
    obtain ⟨stage, lastSlot⟩ := d
    obtain rfl : stage = .idle := h.idle
    exact underway_idle lastSlot rs
  induction hu, buffer using Underway.drain_induction generalizing enc ms with
  | dry hu hr =>
    rw [drain_incomplete hr]
    refine ⟨[], rfl, .nil, ?_, ?_⟩
    · rw [List.flatMap_nil, h.drain_nil]
      rfl
    · rw [List.flatMap_nil, h.drain_nil]
  | @result d rs buffer hu hr ih =>
    rw [drain_push hr] at hok ⊢
    generalize hcall : d.decode rs buffer = call at hr hok ih ⊢
    obtain ⟨hhead, htail⟩ := List.forall_mem_cons.1 hok
    obtain ⟨slot, hslot⟩ : ∃ slot, call.result = .ok slot := by
      cases hresult : call.result with
      | ok slot => exact ⟨slot, rfl⟩
      | error e =>
        cases e with
        | incomplete => exact absurd hresult hr
        | garbled e => exact absurd hresult (hhead e)
    obtain ⟨m, r, e, bytes, hm, hr', hencode, hbytes, hlength, hdecode, hnext, ht'⟩ :=
      h.relay_decode ht hcall hslot
    obtain ⟨sent, hsent, hlengths, hview, hrest⟩ := ih hnext ht' htail
    have hagain : (d.decode rs (bytes ++ sent.flatMap Sent.bytes)).result ≠ .error .incomplete := by
      rw [hdecode, hslot]
      simp
    refine ⟨⟨slot, m.copyFrom r, bytes, ms.set slot e.message⟩ :: sent, ?_, .cons hlength hlengths,
      ?_, ?_⟩
    · simp only [Drained.push, Encoder.relayAll, hslot, hm, hr', hencode, hbytes, hsent,
        Option.map_some]
    · rw [List.flatMap_cons, drain_push hagain, hdecode, List.drop_left, Drained.view_push,
        Drained.view_push, hview]
    · rw [List.flatMap_cons, drain_push hagain, hdecode, List.drop_left]
      exact hrest

/--
Whatever a fresh decoder decodes without a garbled message, a fresh encoder can relay: each message
is sent in no more bytes than it came in, and what is sent decodes to the same messages.
-/
theorem drain_of_relayAll (set : TemplateSet) (bytes : List UInt8)
    (hok : ∀ call ∈ (Decoder.fresh.drain set.messages bytes).decodings,
      ∀ e, call.result ≠ .error (.garbled e)) :
    ∃ sent,
      Encoder.fresh.relayAll set.messages (Decoder.fresh.drain set.messages bytes).decodings =
        some sent ∧
      List.Forall₂ (fun call s => s.bytes.length ≤ call.consumed)
        (Decoder.fresh.drain set.messages bytes).decodings sent ∧
      (Decoder.fresh.drain set.messages (sent.flatMap Sent.bytes)).decodings.map
          (fun call => (call.result, call.messages)) =
        (Decoder.fresh.drain set.messages bytes).decodings.map
          (fun call => (call.result, call.messages)) ∧
      (Decoder.fresh.drain set.messages (sent.flatMap Sent.bytes)).rest = [] :=
  (inStep_fresh set).drain_relayAll set.typed_messages bytes hok

/--
Two quotes that take more bytes than they need: a number in two groups where one will do, a counter
and a size sent though they can be inferred, a template id for the second time.
-/
def wordyQuotes : List UInt8 :=
  [240, 135, 129, 130, 224, 0, 138, 3, 245, 128, 128,
    240, 135, 0, 130, 130, 224, 138, 128, 128, 128]

theorem drain_of_relayAll_quotes :
    let calls := (Decoder.fresh.drain quotes.messages wordyQuotes).decodings
    calls.map Decoding.result = [.ok 0, .ok 0] ∧
      ((Encoder.fresh.relayAll quotes.messages calls).getD []).map Sent.bytes =
        [[224, 135, 129, 130, 192, 138, 3, 245, 128, 128], [128, 130, 128, 128, 128, 128]] ∧
      ∃ sent, Encoder.fresh.relayAll quotes.messages calls = some sent ∧
        List.Forall₂ (fun call s => s.bytes.length ≤ call.consumed) calls sent ∧
        (Decoder.fresh.drain quotes.messages (sent.flatMap Sent.bytes)).decodings.map
            (fun call => (call.result, call.messages)) =
          calls.map (fun call => (call.result, call.messages)) ∧
        (Decoder.fresh.drain quotes.messages (sent.flatMap Sent.bytes)).rest = [] := by
  intro calls
  have hresults : calls.map Decoding.result = [.ok 0, .ok 0] := by decide +kernel
  have hok : ∀ call ∈ calls, ∀ e, call.result ≠ .error (.garbled e) := by
    intro call hcall e he
    have := List.mem_map_of_mem (f := Decoding.result) hcall
    rw [hresults, he] at this
    simp at this
  exact ⟨hresults, by decide +kernel, drain_of_relayAll quotes wordyQuotes hok⟩

end Decoder

end MarketFeed
