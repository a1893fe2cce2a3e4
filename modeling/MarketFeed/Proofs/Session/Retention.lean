import MarketFeed.Proofs.Message.Overwriting
import MarketFeed.Proofs.Session.Reset
import Mathlib.Data.List.Nodup

/-!
# What is left of the message received last

A session reads a message into the fields of the last one of its template, so what it has of that
one is lost field by field, by a read that is still under way or has failed just as by one that
succeeds. Behind the fields that reads have gone over since, the last message is as it was returned
(`Session.History.message?_shownFrom`); in front of them there may be fields of a message that never
arrives (`Session.message?_torn`).
-/

namespace MarketFeed

namespace Messages

/-- One of the messages has been read into, as far as this, or none has. -/
inductive Overwrites (ms : Messages) : Option (UInt32 × Nat) → Messages → Prop
  | none : Overwrites ms none ms
  | one {slot n : Nat} {m m' : Message} (hm : ms[slot]? = some m)
      (behind : m'.shownFrom n = m.shownFrom n) : Overwrites ms (some (m.id, n)) (ms.set slot m')

end Messages

namespace Decoder

/-- The template id of the message that a call reads, and how many of its items it goes over. -/
def reach? (d : Decoder) (ms : Messages) (buffer : List UInt8) : Option (UInt32 × Nat) :=
  (d.intake? ms buffer).bind fun f =>
    (ms[f.slot]?).map fun m => (m.id, m.reach f.map f.place f.bytes)

theorem overwrites_decode (d : Decoder) (ms : Messages) (buffer : List UInt8) :
    ms.Overwrites (d.reach? ms buffer) (d.decode ms buffer).messages := by
  rw [messages_decode]
  unfold reach?
  cases d.intake? ms buffer with
  | none => exact .none
  | some f =>
    simp only [Option.elim_some, Option.bind_some, Intake.filled]
    cases hm : ms[f.slot]? with
    | none => exact .none
    | some m => exact .one hm (m.shownFrom_read f.map f.place f.bytes)

end Decoder

namespace Session

/-- What happens to the messages that a session receives into. -/
inductive Event where
  | reset
  /-- A message of this template is being read, and so many of its items have been gone over. -/
  | read (id : UInt32) (items : Nat)
  | returned (m : Message)

/-! ## Histories of events -/

namespace Event

/-- The last message of a template that has been returned since the last reset, if there is one. -/
def last? (id : UInt32) : List Event → Option Message
  | [] | .reset :: _ => none
  | .returned m :: events => if m.id = id then some m else last? id events
  | .read _ _ :: events => last? id events

/-- How many items of that message have been gone over since it was returned. -/
def gone (id : UInt32) : List Event → Nat
  | [] | .reset :: _ => 0
  | .returned m :: events => if m.id = id then 0 else gone id events
  | .read id' items :: events => if id' = id then max items (gone id events) else gone id events

/-- What an answer tells of the messages: one that ends the history is returned after a reset. -/
def ofAnswer (resetting : Bool) : Except SessionError (Option Message) → List Event
  | .ok (some m) => if m.resets && resetting then [.returned m, .reset] else [.returned m]
  | .ok none | .error _ => []

end Event

/-- The message that the next call to the decoder reads. -/
def readEvents (s : Session) : List Event :=
  ((s.decoder.reach? s.incoming s.buffer.unread).map fun (id, n) => .read id n).toList

/-- The messages that a call to `receive` reads in its turns, those of the last turn first. -/
def attempts (s : Session) : List Event :=
  match _h : s.turn with
  | .done _ _ => s.readEvents
  | .again s' => attempts s' ++ s.readEvents
termination_by s.work
decreasing_by exact turn_again _h

/-- The sessions that are reached by receiving and sending, with their events, the latest first. -/
inductive History (set : TemplateSet) : List Event → Session → Prop where
  | create (source : Source) (options : SessionOptions) :
      History set [] (create set source options)
  | bring {events : List Event} {s : Session} (h : History set events s) (source : Source) :
      History set events { s with source }
  | receive {events : List Event} {s : Session} (h : History set events s) :
      History set (Event.ofAnswer s.options.resetOnReset s.receive.1 ++ s.attempts ++ events)
        s.receive.2
  | reset {events : List Event} {s : Session} (h : History set events s) :
      History set (.reset :: events) s.reset
  | fill {events : List Event} {s : Session} (h : History set events s) (outgoing : Messages) :
      History set events { s with outgoing }
  | encode {events : List Event} {s : Session} (h : History set events s) (id : UInt32) :
      History set events (s.encode id).2

variable {set : TemplateSet} {s : Session} {events : List Event}

theorem History.reached (h : History set events s) : Reached set s := by
  induction h with
  | create source options => exact .create source options
  | bring _ source ih => exact ih.bring source
  | receive _ ih => exact ih.receive
  | reset _ ih => exact ih.reset
  | fill _ outgoing ih => exact ih.fill outgoing
  | encode _ id ih => exact ih.encode id

theorem attempts_of_done {answer : Except SessionError (Option Message)} {s' : Session}
    (h : s.turn = .done answer s') : s.attempts = s.readEvents := by
  rw [attempts]
  split
  · rfl
  · next h' => cases h.symm.trans h'

theorem attempts_of_again {s' : Session} (h : s.turn = .again s') :
    s.attempts = s'.attempts ++ s.readEvents := by
  rw [attempts]
  split
  · next h' => cases h.symm.trans h'
  · next h' =>
    obtain rfl := Turn.again.inj (h.symm.trans h')
    rfl

/-! ## What is kept of the messages -/

/-- Behind what has been gone over a message shows what was returned last, or what it did at first. -/
structure Retains (events : List Event) (fresh m : Message) : Prop where
  id : m.id = fresh.id
  shown : m.shownFrom (Event.gone fresh.id events) =
    ((Event.last? fresh.id events).getD fresh).shownFrom (Event.gone fresh.id events)

/-- All messages are what the events have left of them. -/
def RetainsAll (events : List Event) (fresh ms : Messages) : Prop :=
  List.Forall₂ (Retains events) fresh ms

theorem Retains.congr {events' : List Event} {fresh m : Message} (h : Retains events fresh m)
    (hlast : Event.last? fresh.id events' = Event.last? fresh.id events)
    (hgone : Event.gone fresh.id events' = Event.gone fresh.id events) :
    Retains events' fresh m := by
  refine ⟨h.id, ?_⟩
  rw [hlast, hgone]
  exact h.shown

theorem retainsAll_nil (fresh : Messages) : RetainsAll [] fresh fresh :=
  List.forall₂_same.2 fun _ _ => ⟨rfl, rfl⟩

section

variable {fresh ms ms' : Messages} {slot : Nat} {m m' : Message}

/-- One message is exchanged for another, which is no concern of the other templates. -/
theorem RetainsAll.exchange {events' : List Event} (h : RetainsAll events fresh ms)
    (hfresh : (fresh.map Message.id).Nodup) (hm : ms[slot]? = some m)
    (hown : ∀ f, m.id = f.id → Retains events f m → Retains events' f m')
    (hother : ∀ f m'', m.id ≠ f.id → Retains events f m'' → Retains events' f m'') :
    RetainsAll events' fresh (ms.set slot m') := by
  obtain ⟨hslot, rfl⟩ := List.getElem?_eq_some_iff.1 hm
  obtain ⟨hlength, hall⟩ := List.forall₂_iff_get.1 h
  refine List.forall₂_iff_get.2 ⟨by simpa using hlength, fun i hi hi' => ?_⟩
  simp only [List.get_eq_getElem] at hall ⊢
  rw [List.length_set] at hi'
  rw [List.getElem_set]
  split
  · next heq =>
    subst heq
    exact hown _ (hall slot hi hi').id (hall slot hi hi')
  · next hne =>
    refine hother _ _ (fun hid => hne ?_) (hall i hi hi')
    rw [(hall slot (hlength ▸ hslot) hslot).id] at hid
    rw [← List.getElem_map Message.id (h := by simpa using hlength ▸ hslot),
      ← List.getElem_map Message.id (h := by simpa using hi)] at hid
    exact hfresh.getElem_inj_iff.1 hid

theorem RetainsAll.read (h : RetainsAll events fresh ms) (hfresh : (fresh.map Message.id).Nodup)
    {reach : Option (UInt32 × Nat)} (hms : ms.Overwrites reach ms') :
    RetainsAll ((reach.map fun (id, n) => Event.read id n).toList ++ events) fresh ms' := by
  cases hms with
  | none => exact h
  | @one slot n m m' hm behind =>
    change RetainsAll (.read m.id n :: events) fresh (ms.set slot m')
    refine h.exchange hfresh hm (fun f hid hf => ⟨?_, ?_⟩) fun f m'' hid hf =>
      hf.congr rfl (if_neg hid)
    · exact (congrArg Message.id behind).trans hf.id
    · rw [Event.last?, Event.gone, if_pos hid]
      exact (Message.shownFrom_mono behind (Nat.le_max_left ..)).trans
        (Message.shownFrom_mono hf.shown (Nat.le_max_right ..))

theorem RetainsAll.returned (h : RetainsAll events fresh ms)
    (hfresh : (fresh.map Message.id).Nodup) (hm : ms[slot]? = some m) :
    RetainsAll (.returned m :: events) fresh ms := by
  have hsame : ms.set slot m = ms := by
    obtain ⟨hslot, rfl⟩ := List.getElem?_eq_some_iff.1 hm
    exact List.set_getElem_self hslot
  rw [← hsame]
  refine h.exchange hfresh hm (fun f hid hf => ⟨hf.id, ?_⟩) fun f m'' hid hf =>
    hf.congr (if_neg hid) (if_neg hid)
  rw [Event.last?, Event.gone, if_pos hid, if_pos hid]
  rfl

/-- A reset leaves nothing to be seen of what was received before. -/
theorem retainsAll_reset (hms : set.messages.Keeps ms) (events : List Event) :
    RetainsAll (.reset :: events) set.messages ms.reset := by
  have hbare : ∀ ms : Messages, ms.reset.map Message.shown = ms.reset.map Message.bare := by
    intro ms
    simp only [Messages.reset, List.map_map]
    exact List.map_congr_left fun m _ => m.shown_reset.trans m.bare_reset.symm
  have hshown : List.Forall₂ (· = ·) (set.messages.map Message.shown)
      (ms.reset.map Message.shown) := by
    rw [hbare, hms.reset, ← hbare, set.reset_messages]
    exact List.forall₂_refl _
  rw [List.forall₂_map_left_iff, List.forall₂_map_right_iff] at hshown
  exact hshown.imp fun f m h => ⟨(congrArg Message.id h).symm, h.symm⟩

end

/-- Whether the history ends is told by the message that is returned. -/
theorem nextMessages_of_ok {r : Decoding} {slot : Nat} (hresult : r.result = .ok slot)
    (resetting : Bool) :
    r.nextMessages resetting =
      if ((r.nextMessages resetting)[slot]?).any (·.resets) && resetting then r.messages.reset
      else r.messages := by
  have hends : r.endsHistory = (r.messages[slot]?).any (·.resets) := by
    rw [Decoding.endsHistory, hresult]
  have hreset : (r.messages.reset[slot]?).any (·.resets) = (r.messages[slot]?).any (·.resets) := by
    rw [Messages.reset, List.getElem?_map, Option.any_map]
    rfl
  unfold Decoding.nextMessages
  rw [hends]
  cases resetting with
  | false => simp
  | true =>
    cases hany : (r.messages[slot]?).any (·.resets) with
    | false => simp [hany]
    | true => simp [hreset, hany]

/-- What is returned is retained, and if it ends the history everything else is reset. -/
theorem retainsAll_returned {r : Decoding} {slot : Nat} (hresult : r.result = .ok slot)
    (hkeeps : set.messages.Keeps r.messages) (h : RetainsAll events set.messages r.messages)
    (resetting : Bool) :
    RetainsAll (Event.ofAnswer resetting (.ok (r.nextMessages resetting)[slot]?) ++ events)
      set.messages (r.nextMessages resetting) := by
  have hnext := nextMessages_of_ok hresult resetting
  cases hm : (r.nextMessages resetting)[slot]? with
  | none =>
    rw [hm, Option.any_none, Bool.false_and, if_neg Bool.false_ne_true] at hnext
    rw [hnext]
    exact h
  | some m =>
    rw [hm, Option.any_some] at hnext
    simp only [Event.ofAnswer]
    split
    · next hends =>
      rw [if_pos hends] at hnext
      refine RetainsAll.returned ?_ set.nodup_messages hm
      rw [hnext]
      exact retainsAll_reset hkeeps events
    · next hgoesOn =>
      rw [if_neg hgoesOn] at hnext
      exact RetainsAll.returned (hnext ▸ h) set.nodup_messages hm

theorem RetainsAll.attempt (h : RetainsAll events set.messages s.incoming) :
    RetainsAll (s.readEvents ++ events) set.messages s.attempt.messages :=
  h.read set.nodup_messages (s.decoder.overwrites_decode s.incoming s.buffer.unread)

/-- A call leaves of the messages what its reads and its answer tell. -/
theorem retainsAll_receive (hkeeps : set.messages.Keeps s.incoming)
    (h : RetainsAll events set.messages s.incoming) :
    RetainsAll (Event.ofAnswer s.options.resetOnReset s.receive.1 ++ s.attempts ++ events)
      set.messages s.receive.2.incoming := by
  induction s using receive.induct generalizing events with
  | case1 s answer s' ht =>
    have hread := h.attempt
    have hturned := s.turned
    rw [ht] at hturned
    rw [receive_of_done ht, attempts_of_done ht, List.append_assoc]
    cases hturned with
    | delivers result =>
      exact retainsAll_returned result (hkeeps.trans s.keeps_attempt) hread _
    | ends answer_ne incoming =>
      have hnothing : Event.ofAnswer s.options.resetOnReset answer = [] := by
        cases answer with
        | error e => rfl
        | ok m? =>
          cases m? with
          | none => rfl
          | some m => exact absurd rfl (answer_ne m)
      rw [hnothing]
      exact incoming ▸ hread
  | case2 s s' ht ih =>
    have hread := h.attempt
    have hturned := s.turned
    rw [ht] at hturned
    rw [receive_of_again ht, attempts_of_again ht]
    cases hturned with
    | goesOn incoming options =>
      have hrest := ih (incoming ▸ hkeeps.trans s.keeps_attempt) (incoming ▸ hread)
      rw [options] at hrest
      simpa only [List.append_assoc] using hrest

theorem History.retainsAll (h : History set events s) :
    RetainsAll events set.messages s.incoming := by
  induction h with
  | create source options => exact retainsAll_nil set.messages
  | bring _ source ih => exact ih
  | receive h ih => exact retainsAll_receive h.reached.keeps ih
  | reset h ih => exact retainsAll_reset h.reached.keeps _
  | fill _ outgoing ih => exact ih
  | @encode _ s _ id ih =>
    obtain ⟨outgoing, encoder, heq⟩ := s.encode_eq id
    rw [heq]
    exact ih

/--
Whatever has been received, cut short or garbled: behind the items that reads have gone over since,
the message of a template shows what was returned last since the last reset, and if nothing was,
what it did at the start. It shows all of it if no message of the template has been read since.
-/
theorem History.message?_shownFrom (h : History set events s) (id : UInt32) :
    (s.message? id).map (Message.shownFrom (Event.gone id events)) =
      (set.messages.find? id).map fun fresh =>
        ((Event.last? id events).getD fresh).shownFrom (Event.gone id events) := by
  have hall := h.retainsAll
  unfold message?
  generalize set.messages = fresh at hall
  generalize s.incoming = ms at hall
  unfold Messages.find?
  induction hall with
  | nil => rfl
  | @cons f m fresh ms hretains _ ih =>
    rw [List.find?_cons, List.find?_cons, hretains.id]
    by_cases hid : f.id = id
    · subst hid
      simpa using hretains.shown
    · rw [beq_eq_false_iff_ne.2 hid]
      exact ih

def pair : TemplateSet := ⟨[
  { id := 1, name := "Pair", fields := [
    .scalar { name := "A", id := 1, kind := .uint },
    .scalar { name := "B", id := 2, kind := .uint }] }], rfl⟩

/-- A pair of 1 and 2, and of the next one just the 3. -/
def cutPair : Source := [.bytes [0xC0, 0x81, 0x81, 0x82, 0xC0, 0x81, 0x83]]

/-- What the fields of a message hold. -/
def entries (m : Message) : List Entry := m.items.map (·.head.current)

/-- The first field has been gone over, and the second one is as it was returned. -/
theorem History.message?_shownFrom_cut :
    ∃ events s, History pair events s ∧ Event.gone 1 events = 1 ∧
      (Event.last? 1 events).map entries = some [.assigned (.uint 1), .assigned (.uint 2)] ∧
      (s.message? 1).map (Message.shownFrom 1) = (pair.messages.find? 1).map fun fresh =>
        ((Event.last? 1 events).getD fresh).shownFrom 1 := by
  obtain ⟨events, s, h, hgone, hlast⟩ : ∃ events s, History pair events s ∧
      Event.gone 1 events = 1 ∧
      (Event.last? 1 events).map entries = some [.assigned (.uint 1), .assigned (.uint 2)] :=
    ⟨_, _, (History.create cutPair {}).receive.receive, by decide +kernel, by decide +kernel⟩
  have hfrom := h.message?_shownFrom 1
  rw [hgone] at hfrom
  exact ⟨events, s, h, hgone, hlast, hfrom⟩

/-- Two messages at once: a pair is returned, and after the next call there is a 3 before its 2. -/
theorem message?_torn :
    ∃ events s, History pair events s ∧
      (Event.last? 1 events).map entries = some [.assigned (.uint 1), .assigned (.uint 2)] ∧
      (s.message? 1).map entries = some [.assigned (.uint 3), .assigned (.uint 2)] :=
  ⟨_, _, (History.create cutPair {}).receive.receive, by decide +kernel, by decide +kernel⟩

end Session

end MarketFeed
