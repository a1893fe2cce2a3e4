import MarketFeed.Proofs.Message.Renewal
import MarketFeed.Proofs.Stream.Transcript

/-!
# Decoding over what was there

Between two messages, what a call to a decoder comes to depends on what the fields remember and on
nothing else: it comes to the same with messages that differ in the rows of their groups, and what
it delivers then shows the same (`Decoder.decode_alike`). And no call leaves anything in the
messages that would outlive a reset (`Decoder.keeps_decode`).
-/

namespace MarketFeed

namespace Messages

variable {ms ms' ms'' : Messages}

/-- A call leaves the messages as they are, or reads into one of them. -/
inductive ReadInto (ms : Messages) : Messages → Prop
  | none : ReadInto ms ms
  | one {slot : Nat} {m : Message} (hm : ms[slot]? = some m) (map : PresenceMap) (place : Place)
      (bytes : List UInt8) : ReadInto ms (ms.set slot (m.read map place bytes).state)

/-- What decoding and resetting keep of the messages. -/
structure Keeps (ms ms' : Messages) : Prop where
  reset : ms'.reset.map Message.bare = ms.reset.map Message.bare
  rectangular : (∀ m ∈ ms, m.Rectangular) → ∀ m ∈ ms', m.Rectangular

theorem keeps_refl (ms : Messages) : ms.Keeps ms := ⟨rfl, id⟩

theorem Keeps.trans (h : ms.Keeps ms') (h' : ms'.Keeps ms'') : ms.Keeps ms'' :=
  ⟨h'.reset.trans h.reset, fun hms => h'.rectangular (h.rectangular hms)⟩

theorem keeps_reset (ms : Messages) : ms.Keeps ms.reset := by
  refine ⟨?_, fun hms m hm => ?_⟩
  · simp only [reset, List.map_map]
    exact List.map_congr_left fun m _ => m.keeps_reset.reset
  · obtain ⟨before, hbefore, rfl⟩ := List.mem_map.1 hm
    exact before.keeps_reset.rectangular (hms before hbefore)

theorem keeps_set {slot : Nat} {m m' : Message} (hm : ms[slot]? = some m) (h : m.Keeps m') :
    ms.Keeps (ms.set slot m') := by
  obtain ⟨hlt, rfl⟩ := List.getElem?_eq_some_iff.1 hm
  refine ⟨?_, fun hms m'' hmem => ?_⟩
  · simp only [reset, List.map_map, List.map_set]
    refine List.ext_getElem (by simp) fun i hi hi' => ?_
    rw [List.getElem_set]
    split
    · next hslot =>
      subst hslot
      rw [List.getElem_map]
      exact h.reset
    · rfl
  · rcases List.mem_or_eq_of_mem_set hmem with hmem | rfl
    · exact hms m'' hmem
    · exact h.rectangular (hms _ (List.getElem_mem hlt))

theorem keeps_modify (ms : Messages) (slot : Nat) {f : Message → Message}
    (h : ∀ m : Message, m.Keeps (f m)) : ms.Keeps (ms.modify slot f) := by
  cases hm : ms[slot]? with
  | none =>
    rw [List.modify_eq_self (List.getElem?_eq_none_iff.1 hm)]
    exact ms.keeps_refl
  | some m =>
    rw [List.modify_eq_set_getElem?, hm]
    exact keeps_set hm (h m)

/-- The messages differ only in the rows of their groups, each with a cell for each field. -/
structure Alike (ms ms' : Messages) : Prop where
  bare : ms.map Message.bare = ms'.map Message.bare
  left : ∀ m ∈ ms, m.Rectangular
  right : ∀ m ∈ ms', m.Rectangular

theorem Alike.keeps (h : ms.Alike ms') {later later' : Messages} (hleft : ms.Keeps later)
    (hright : ms'.Keeps later') (hbare : later.map Message.bare = later'.map Message.bare) :
    later.Alike later' :=
  ⟨hbare, hleft.rectangular h.left, hright.rectangular h.right⟩

/-- Messages that came of the same ones are alike once they are reset. -/
theorem Keeps.alike_reset (h : ms.Keeps ms') (hms : ∀ m ∈ ms, m.Rectangular) :
    ms'.reset.Alike ms.reset :=
  ⟨h.reset, (h.trans ms'.keeps_reset).rectangular hms, ms.keeps_reset.rectangular hms⟩

theorem Alike.reset (h : ms.Alike ms') : ms.reset.Alike ms'.reset := by
  refine h.keeps ms.keeps_reset ms'.keeps_reset ?_
  have hreset (ms : Messages) :
      ms.reset.map Message.bare = Messages.reset (ms.map Message.bare) := by
    simp only [Messages.reset, List.map_map]
    exact List.map_congr_left fun m _ => m.bare_reset
  rw [hreset, h.bare, hreset]

theorem Alike.slot? (h : ms.Alike ms') (id : UInt32) : ms.slot? id = ms'.slot? id := by
  have hbare (ms : Messages) : Messages.slot? (ms.map Message.bare) id = ms.slot? id :=
    List.findIdx?_map
  rw [← hbare, h.bare, hbare]

/-- In every slot there are messages that differ in the rows of their groups only. -/
theorem Alike.getElem? (h : ms.Alike ms') (slot : Nat) :
    (ms[slot]?).map Message.bare = (ms'[slot]?).map Message.bare := by
  rw [← List.getElem?_map, h.bare, List.getElem?_map]

end Messages

namespace Decoding

variable {r r' : Decoding} {resetting : Bool}

/-- The calls come to the same, and what they leave differs in the rows of the groups only. -/
structure Alike (r r' : Decoding) : Prop where
  result : r.result = r'.result
  decoder : r.decoder = r'.decoder
  messages : r.messages.Alike r'.messages
  consumed : r.consumed = r'.consumed
  shown : ∀ slot, r.result = .ok slot →
    (r.messages[slot]?).map Message.shown = (r'.messages[slot]?).map Message.shown

/-- Whether the history ends is told by the template of the message. -/
theorem Alike.endsHistory (h : r.Alike r') : r.endsHistory = r'.endsHistory := by
  unfold Decoding.endsHistory
  rw [h.result]
  cases r'.result with
  | error why => rfl
  | ok slot =>
    have hslot := congrArg (Option.any Message.resets) (h.messages.getElem? slot)
    rwa [Option.any_map, Option.any_map] at hslot

theorem Alike.nextDecoder (h : r.Alike r') :
    r.nextDecoder resetting = r'.nextDecoder resetting := by
  rw [Decoding.nextDecoder, Decoding.nextDecoder, h.endsHistory, h.decoder]

theorem Alike.nextMessages (h : r.Alike r') :
    (r.nextMessages resetting).Alike (r'.nextMessages resetting) := by
  rw [Decoding.nextMessages, Decoding.nextMessages, h.endsHistory]
  split
  · exact h.messages.reset
  · exact h.messages

/-- What is handed over shows the same. -/
theorem Alike.delivered (h : r.Alike r') {slot : Nat} (hresult : r.result = .ok slot) :
    ((r.nextMessages resetting)[slot]?).map Message.shown =
      ((r'.nextMessages resetting)[slot]?).map Message.shown := by
  rw [Decoding.nextMessages, Decoding.nextMessages, h.endsHistory]
  split
  · have hslot := congrArg (Option.map Message.reset) (h.messages.getElem? slot)
    simpa only [Messages.reset, List.getElem?_map, Option.map_map, Function.comp_def,
      Message.shown_reset] using hslot
  · exact h.shown slot hresult

end Decoding

namespace Decoder

/-- What is held is the same, but for the rows of the messages. -/
structure Holding.Alike (s t : Holding) : Prop where
  lastSlot : s.1 = t.1
  bare : s.2.1.map Message.bare = t.2.1.map Message.bare
  slot : s.2.2 = t.2.2

/-- The message that has been delivered shows the same besides. -/
structure Holding.Delivers (s t : Holding) : Prop extends Holding.Alike s t where
  shown : (s.2.1[s.2.2]?).map Message.shown = (t.2.1[t.2.2]?).map Message.shown

variable {ms ms' : Messages}

theorem fill_tallies (h : ms.Alike ms') (d : Decoder) (map : PresenceMap) (slot : Nat)
    (bytes : List UInt8) :
    Progress.Tallies Holding.Alike Holding.Delivers (d.fill ms map slot {} bytes).progress
      (d.fill ms' map slot {} bytes).progress := by
  have hslot := h.getElem? slot
  cases hm : ms[slot]? with
  | none =>
    rw [hm] at hslot
    have hm' : ms'[slot]? = none := Option.map_eq_none_iff.1 hslot.symm
    rw [progress_fill_none hm, progress_fill_none hm']
    exact .refused ⟨rfl, h.bare, rfl⟩ _ bytes
  | some m =>
    rw [hm] at hslot
    obtain ⟨m', hm', hbare⟩ := Option.map_eq_some_iff.1 hslot.symm
    rw [progress_fill hm, progress_fill hm']
    refine (Message.read_tallies hbare.symm (h.left m (List.mem_of_getElem? hm))
      (h.right m' (List.mem_of_getElem? hm')) map bytes).andThen ?_ fun s t rest _ hst => ?_
    · intro s t hst
      refine ⟨rfl, ?_, rfl⟩
      simp only [List.map_set, h.bare, hst]
    · have hheld : Holding.Alike
          (if s.resets then none else some slot, ms.set slot s, slot)
          (if t.resets then none else some slot, ms'.set slot t, slot) := by
        refine ⟨by rw [(Message.mk.inj hst).2.2.1], ?_, rfl⟩
        simp only [List.map_set, h.bare, Message.bare_of_shown hst]
      refine .finished hheld ⟨hheld, ?_⟩ rest
      have hset {ms : Messages} {m : Message} (hm : ms[slot]? = some m) (m' : Message) :
          (ms.set slot m')[slot]? = some m' :=
        List.getElem?_set_self (List.getElem?_eq_some_iff.1 hm).1
      rw [hset hm, hset hm']
      exact congrArg some hst

theorem readSlot_alike (h : ms.Alike ms') (d : Decoder) (map : PresenceMap) :
    d.readSlot ms map = d.readSlot ms' map := by
  simp only [readSlot, h.slot?]

theorem resumeFrom_tallies (h : ms.Alike ms') (lastSlot : Option Nat) (bytes : List UInt8) :
    Progress.Tallies Holding.Alike Holding.Delivers (resumeFrom (lastSlot, ms, 0) .idle bytes)
      (resumeFrom (lastSlot, ms', 0) .idle bytes) := by
  have hstart : Holding.Alike (lastSlot, ms, 0) (lastSlot, ms', 0) := ⟨rfl, h.bare, rfl⟩
  rw [progress_resume_idle, progress_resume_idle]
  refine .afterToken hstart fun map rest _ => ?_
  have hafter (ms : Messages) := congrFun (progress_afterMap ⟨.idle, lastSlot⟩ ms map) rest
  rw [hafter, hafter, readSlot_alike h]
  exact .afterToken hstart fun slot rest _ => fill_tallies h _ map slot rest

/-- The fields of the message in a slot that are to be read, from a place on. -/
structure Intake where
  map : PresenceMap
  slot : Nat
  place : Place
  bytes : List UInt8

/-- What is to be read once the presence map is known. -/
def intakeAfter? (d : Decoder) (ms : Messages) (map : PresenceMap) (bytes : List UInt8) :
    Option Intake :=
  match d.readSlot ms map bytes with
  | .done slot rest => some { map, slot, place := {}, bytes := rest }
  | .dry | .garbled _ _ => none

/-- What a call gets to read, if it gets as far as the fields of a message. -/
def intake? (d : Decoder) (ms : Messages) (bytes : List UInt8) : Option Intake :=
  match d.stage with
  | .filling map slot place => some { map, slot, place, bytes }
  | .mapped map => d.intakeAfter? ms map bytes
  | .idle =>
    match PresenceMap.read bytes with
    | .done map rest => d.intakeAfter? ms map rest
    | .dry | .garbled _ _ => none

/-- The messages once one of them has been read into. -/
def Intake.filled (f : Intake) (ms : Messages) : Messages :=
  match ms[f.slot]? with
  | none => ms
  | some m => ms.set f.slot (m.read f.map f.place f.bytes).state

theorem messages_fill (d : Decoder) (ms : Messages) (f : Intake) :
    (d.fill ms f.map f.slot f.place f.bytes).messages = f.filled ms := by
  unfold fill Intake.filled
  cases ms[f.slot]? with
  | none => rfl
  | some m =>
    dsimp only
    obtain ⟨m', ending, rest⟩ := m.read f.map f.place f.bytes
    cases ending <;> rfl

theorem messages_afterMap (d : Decoder) (ms : Messages) (map : PresenceMap) (bytes : List UInt8) :
    (d.afterMap ms map bytes).messages = (d.intakeAfter? ms map bytes).elim ms (·.filled ms) := by
  unfold afterMap intakeAfter?
  cases d.readSlot ms map bytes with
  | done slot rest => exact d.messages_fill ms { map, slot, place := {}, bytes := rest }
  | dry => rfl
  | garbled e rest => rfl

/-- All that a call does to the messages is to read into one of them. -/
theorem messages_decode (d : Decoder) (ms : Messages) (buffer : List UInt8) :
    (d.decode ms buffer).messages = (d.intake? ms buffer).elim ms (·.filled ms) := by
  have hresume : (d.resume ms buffer).messages = (d.intake? ms buffer).elim ms (·.filled ms) := by
    unfold resume intake?
    cases d.stage with
    | filling map slot place => exact d.messages_fill ms { map, slot, place, bytes := buffer }
    | mapped map => exact d.messages_afterMap ms map buffer
    | idle =>
      cases PresenceMap.read buffer with
      | done map rest => exact d.messages_afterMap ms map rest
      | dry => rfl
      | garbled e rest => rfl
  rw [← hresume]
  unfold decode
  obtain ⟨⟨_ | _⟩ | _, _, _, _⟩ := d.resume ms buffer <;> rfl

theorem readInto_decode (d : Decoder) (ms : Messages) (buffer : List UInt8) :
    ms.ReadInto (d.decode ms buffer).messages := by
  rw [messages_decode]
  cases d.intake? ms buffer with
  | none => exact .none
  | some f =>
    simp only [Option.elim_some, Intake.filled]
    split
    · exact .none
    · next m hm => exact .one hm f.map f.place f.bytes

theorem keeps_decode (d : Decoder) (ms : Messages) (buffer : List UInt8) :
    ms.Keeps (d.decode ms buffer).messages := by
  have hread := readInto_decode d ms buffer
  generalize (d.decode ms buffer).messages = ms' at hread ⊢
  cases hread with
  | none => exact ms.keeps_refl
  | one hm map place bytes => exact Messages.keeps_set hm (Message.keeps_read _ map place bytes)

theorem decode_alike (h : ms.Alike ms') {d : Decoder} (hd : d.inProgress = false)
    (buffer : List UInt8) : (d.decode ms buffer).Alike (d.decode ms' buffer) := by
  have hmessages (hbare : (d.decode ms buffer).messages.map Message.bare =
      (d.decode ms' buffer).messages.map Message.bare) :=
    h.keeps (keeps_decode d ms buffer) (keeps_decode d ms' buffer) hbare
  obtain ⟨stage, lastSlot⟩ := d
  simp only [inProgress, bne_eq_false_iff_eq] at hd
  subst hd
  have htally := resumeFrom_tallies h lastSlot buffer
  rw [decode_eq, decode_eq] at hmessages ⊢
  dsimp only at hmessages ⊢
  generalize resumeFrom (lastSlot, ms, 0) .idle buffer = p at htally hmessages ⊢
  generalize resumeFrom (lastSlot, ms', 0) .idle buffer = q at htally hmessages ⊢
  obtain ⟨⟨last, held, slot⟩, ending, rest⟩ := p
  obtain ⟨⟨last', held', slot'⟩, ending', rest'⟩ := q
  obtain ⟨hending, hrest, hstate, hdone⟩ := htally
  dsimp only at hending hrest hstate hdone
  subst hending hrest
  obtain ⟨rfl, hbare, rfl⟩ := hstate
  cases ending with
  | done =>
    refine ⟨rfl, rfl, hmessages hbare, rfl, fun delivered h => ?_⟩
    obtain rfl := Except.ok.inj h
    exact (hdone rfl).shown
  | dry stage => exact ⟨rfl, rfl, hmessages hbare, rfl, fun _ h => by cases h⟩
  | garbled e => exact ⟨rfl, rfl, hmessages hbare, rfl, fun _ h => by cases h⟩

end Decoder

end MarketFeed
