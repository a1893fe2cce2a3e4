import MarketFeed.Proofs.Session.Reads
import MarketFeed.Proofs.Session.Reset
import MarketFeed.Proofs.Stream.Handling

/-!
# The two directions of a session

A session sends and receives over the same templates, and this is all that its directions have in
common. In whatever order the calls come that receive, fill outgoing messages and encode them, what
they come to is what the calls that receive come to alone, beside what the others do
(`Session.directions_apart`).
-/

namespace MarketFeed

/-! ## The templates that both serve -/

namespace Messages

variable {set : TemplateSet} {ms ms' : Messages}

/-- There is a message for each template, in the order of the templates. -/
def Serves (ms : Messages) (set : TemplateSet) : Prop :=
  ms.map Message.id = set.templates.map Template.id

theorem serves_messages (set : TemplateSet) : set.messages.Serves set := by
  rw [Serves, TemplateSet.messages, List.map_map]
  rfl

/-- The slots are found at the positions of the templates. -/
theorem Serves.slot? (h : ms.Serves set) (id : UInt32) :
    ms.slot? id = set.templates.findIdx? (·.id == id) := by
  have hms := List.findIdx?_map (f := Message.id) (p := (· == id)) (l := ms)
  rw [h, List.findIdx?_map] at hms
  exact hms.symm

theorem Serves.modify (h : ms.Serves set) (slot : Nat) {f : Message → Message}
    (hf : ∀ m, (f m).id = m.id) : Serves (ms.modify slot f) set := by
  rw [Serves, ← h]
  refine List.ext_getElem (by simp) fun i hi hi' => ?_
  simp only [List.getElem_map, List.getElem_modify]
  split
  · exact hf _
  · rfl

theorem Keeps.serves (hk : ms.Keeps ms') (h : ms.Serves set) : ms'.Serves set := by
  have hids (ms : Messages) : (ms.reset.map Message.bare).map Message.id = ms.map Message.id := by
    simp only [Messages.reset, List.map_map]
    rfl
  rw [Serves, ← hids, hk.reset, hids, h]

end Messages

namespace Session

variable {r s : Session}

/-! ## Side by side -/

/-- The receiving side of one session, with the sending side of another. -/
def beside (r s : Session) : Session := { r with outgoing := s.outgoing, encoder := s.encoder }

/-- The same turn, with another session behind it. -/
def Turn.map (f : Session → Session) : Turn → Turn
  | done answer s => .done answer (f s)
  | again s => .again (f s)

theorem deliver_beside (r s : Session) (slot : Nat) :
    (r.beside s).deliver slot = (r.deliver slot).map (·.beside s) := by
  unfold deliver
  dsimp only [beside]
  split <;> rfl

theorem await_beside (r s : Session) : (r.beside s).await = r.await.map (·.beside s) := by
  unfold await
  dsimp only [beside]
  cases hrefill : r.source.refill r.options.blocking r.buffer with
  | mk outcome later => cases outcome <;> rfl

theorem turn_beside (r s : Session) : (r.beside s).turn = r.turn.map (·.beside s) := by
  have hattempt : (r.beside s).attempt = r.attempt := rfl
  have hdecoded : (r.beside s).decoded = r.decoded.beside s := rfl
  rw [turn_eq, turn_eq, hattempt, hdecoded]
  split
  · exact deliver_beside r.decoded s _
  · rw [apply_ite (Turn.map (·.beside s)), ← await_beside]
    rfl
  · rw [apply_ite (Turn.map (·.beside s))]
    rfl

/-- Receiving neither looks at the sending side nor touches it. -/
theorem receive_beside (r s : Session) :
    (r.beside s).receive = (r.receive.1, r.receive.2.beside s) := by
  induction r using receive.induct with
  | case1 r answer r' ht =>
    have hturn := r.turn_beside s
    rw [ht] at hturn
    rw [receive_of_done ht, receive_of_done hturn]
  | case2 r r' ht ih =>
    have hturn := r.turn_beside s
    rw [ht] at hturn
    rw [receive_of_again ht, receive_of_again hturn, ih]

/-- Encoding goes by the options, and else by the sending side, and touches nothing else. -/
theorem encode_beside (h : r.options = s.options) (id : UInt32) :
    (r.beside s).encode id = ((s.encode id).1, r.beside (s.encode id).2) := by
  unfold encode
  dsimp only [beside]
  split
  · rfl
  · split
    · rfl
    · split
      · rfl
      · rw [h]
        split <;> rfl

/-! ## Calls in any order -/

/-- Hands out the outgoing message of a template, to be filled. -/
def fill (s : Session) (id : UInt32) (change : List Item → List Item) : Option Message × Session :=
  match s.outgoing.slot? id with
  | none => (none, s)
  | some slot =>
    let outgoing := s.outgoing.modify slot fun m => { m with items := change m.items }
    (s.outgoing[slot]?, { s with outgoing })

theorem fill_beside (r s : Session) (id : UInt32) (change : List Item → List Item) :
    (r.beside s).fill id change = ((s.fill id change).1, r.beside (s.fill id change).2) := by
  unfold fill
  dsimp only [beside]
  split <;> rfl

inductive Call where
  | receive
  | fill (id : UInt32) (change : List Item → List Item)
  | encode (id : UInt32)

/-- What a call shows: its result, and if it receives the slots as it leaves them. -/
inductive Answer where
  | received (result : Except SessionError (Option Message)) (slots : Messages)
  | filled (slot : Option Message)
  | encoded (result : Except SessionError (List UInt8))

def Call.receives : Call → Bool
  | receive => true
  | fill _ _ | encode _ => false

def Answer.isReceived : Answer → Bool
  | received _ _ => true
  | filled _ | encoded _ => false

def call (s : Session) : Call → Answer × Session
  | .receive => (.received s.receive.1 s.receive.2.incoming, s.receive.2)
  | .fill id change => (.filled (s.fill id change).1, (s.fill id change).2)
  | .encode id => (.encoded (s.encode id).1, (s.encode id).2)

/-- The answers to calls one after the other, and the session that they leave. -/
def calls (s : Session) : List Call → List Answer × Session
  | [] => ([], s)
  | c :: cs => ((s.call c).1 :: ((s.call c).2.calls cs).1, ((s.call c).2.calls cs).2)

theorem isReceived_call (s : Session) (c : Call) : (s.call c).1.isReceived = c.receives := by
  cases c <;> rfl

theorem options_call (s : Session) (c : Call) : (s.call c).2.options = s.options := by
  cases c with
  | receive => exact s.options_receive
  | fill id change =>
    dsimp only [call, fill]
    split <;> rfl
  | encode id =>
    obtain ⟨outgoing, encoder, heq⟩ := s.encode_eq id
    rw [call, heq]

/-- A call that receives is one of the receiving side. -/
theorem call_beside_of_receives {c : Call} (hc : c.receives = true) (r s : Session) :
    (r.beside s).call c = ((r.call c).1, (r.call c).2.beside s) := by
  cases c with
  | receive =>
    simp only [call, receive_beside]
    rfl
  | fill _ _ | encode _ => cases hc

/-- The other calls are those of the sending side. -/
theorem call_beside_of_sends {c : Call} (hc : c.receives = false) (h : r.options = s.options) :
    (r.beside s).call c = ((s.call c).1, r.beside (s.call c).2) := by
  cases c with
  | receive => cases hc
  | fill id change => simp only [call, fill_beside]
  | encode id => simp only [call, encode_beside h]

/-- Calls in any order come to what those of the two directions do, each of them alone. -/
theorem calls_beside (h : r.options = s.options) (cs : List Call) :
    ((r.beside s).calls cs).1.filter (·.isReceived) = (r.calls (cs.filter (·.receives))).1 ∧
      ((r.beside s).calls cs).1.filter (!·.isReceived) = (s.calls (cs.filter (!·.receives))).1 ∧
      ((r.beside s).calls cs).2 =
        (r.calls (cs.filter (·.receives))).2.beside (s.calls (cs.filter (!·.receives))).2 := by
  induction cs generalizing r s with
  | nil => exact ⟨rfl, rfl, rfl⟩
  | cons c cs ih =>
    cases hc : c.receives with
    | true =>
      obtain ⟨hreceived, hsent, hleft⟩ := ih ((r.options_call c).trans h)
      have hanswer : (r.call c).1.isReceived = true := (r.isReceived_call c).trans hc
      simp only [calls, call_beside_of_receives hc, List.filter_cons, hc, hanswer, Bool.not_true,
        Bool.false_eq_true, if_true, if_false, hreceived, hsent, hleft, and_self]
    | false =>
      obtain ⟨hreceived, hsent, hleft⟩ := ih (h.trans (s.options_call c).symm)
      have hanswer : (s.call c).1.isReceived = false := (s.isReceived_call c).trans hc
      simp only [calls, call_beside_of_sends hc h, List.filter_cons, hc, hanswer, Bool.not_false,
        Bool.false_eq_true, if_true, if_false, hreceived, hsent, hleft, and_self]

/-! ## The templates along a run -/

/-- Encoding empties outgoing messages or moves on what they remember. -/
theorem keeps_encode (s : Session) (id : UInt32) : s.outgoing.Keeps (s.encode id).2.outgoing := by
  unfold encode
  split
  · exact s.outgoing.keeps_refl
  · next slot _ =>
    split
    · exact s.outgoing.keeps_refl
    · next m hm =>
      have hset := Messages.keeps_set hm (m.keeps_encode s.encoder)
      dsimp only
      split
      · exact hset
      · split
        · exact hset.trans (Messages.keeps_reset _)
        · exact hset

theorem outgoing_receive (s : Session) : s.receive.2.outgoing = s.outgoing :=
  congrArg (fun answer => answer.2.outgoing) (receive_beside s s)

theorem incoming_encode (s : Session) (id : UInt32) : (s.encode id).2.incoming = s.incoming := by
  obtain ⟨outgoing, encoder, heq⟩ := s.encode_eq id
  rw [heq]

/-- Both sides have a message for each template of the set. -/
structure Serves (set : TemplateSet) (s : Session) : Prop where
  incoming : s.incoming.Serves set
  outgoing : s.outgoing.Serves set

theorem serves_create (set : TemplateSet) (source : Source) (options : SessionOptions) :
    (create set source options).Serves set :=
  ⟨Messages.serves_messages set, Messages.serves_messages set⟩

theorem Serves.call {set : TemplateSet} (h : s.Serves set) (c : Call) : (s.call c).2.Serves set := by
  cases c with
  | receive => exact ⟨s.keeps_receive.serves h.incoming, s.outgoing_receive ▸ h.outgoing⟩
  | fill id change =>
    dsimp only [Session.call, Session.fill]
    split
    · exact h
    · exact ⟨h.incoming, h.outgoing.modify _ fun _ => rfl⟩
  | encode id => exact ⟨s.incoming_encode id ▸ h.incoming, (s.keeps_encode id).serves h.outgoing⟩

theorem Serves.calls {set : TemplateSet} (h : s.Serves set) (cs : List Call) :
    (s.calls cs).2.Serves set := by
  induction cs generalizing s with
  | nil => exact h
  | cons c cs ih => exact ih (h.call c)

/--
Whatever a session of an accepted set is to receive, and in whatever order it is called: the results
of the calls that receive, and the slots as each of them leaves them, are those of these calls alone;
so are the messages handed out to be filled, and the bytes and the errors of the calls that encode,
failed ones and those of a message that ends the history among them. What is left is the receiving
side of the first and the sending side of the others, and neither has lost the place of a template.
-/
theorem directions_apart (set : TemplateSet) (source : Source) (options : SessionOptions)
    (cs : List Call) :
    let s := create set source options
    let received := s.calls (cs.filter (·.receives))
    let sent := s.calls (cs.filter (!·.receives))
    (s.calls cs).1.filter (·.isReceived) = received.1 ∧
    (s.calls cs).1.filter (!·.isReceived) = sent.1 ∧
    (s.calls cs).2 = { received.2 with outgoing := sent.2.outgoing, encoder := sent.2.encoder } ∧
    ∀ id, (s.calls cs).2.incoming.slot? id = set.templates.findIdx? (·.id == id) ∧
      (s.calls cs).2.outgoing.slot? id = set.templates.findIdx? (·.id == id) := by
  intro s received sent
  have hserves : (s.calls cs).2.Serves set := (serves_create set source options).calls cs
  obtain ⟨hreceived, hsent, hleft⟩ := calls_beside (r := s) (s := s) rfl cs
  exact ⟨hreceived, hsent, hleft,
    fun id => ⟨hserves.incoming.slot? id, hserves.outgoing.slot? id⟩⟩

end Session

end MarketFeed
