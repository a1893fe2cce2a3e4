import MarketFeed.Feed
import MarketFeed.Proofs.Session.Room

/-!
# What a feed can still bring

The supply of a session is what its source can still serve and what has been read but not decoded.
No call to `receive` adds to it, and a call that hands over a message uses some of it up, since a
message takes a byte at the least. So a feed brings only so many messages.
-/

namespace MarketFeed

theorem Source.weight_cons (event : ReadEvent) (source : Source) :
    Source.weight (event :: source) = event.weight + source.weight := rfl

/-- What a refill brings is taken from the source. -/
theorem Source.weight_refill_le (blocking : Bool) (source : Source) (b : Buffer) :
    (source.refill blocking b).2.1.weight + (source.refill blocking b).2.2.unread.length ≤
      source.weight + b.unread.length := by
  induction source generalizing b with
  | nil => simp [refill]
  | cons event source ih =>
    have hnext := ih b.makeRoom
    rw [Buffer.unread_makeRoom] at hnext
    rw [weight_cons]
    cases event with
    | interrupted => exact hnext.trans (by omega)
    | wouldBlock =>
      cases blocking with
      | true => exact hnext.trans (by omega)
      | false => simp only [refill, Bool.false_eq_true, if_false, Buffer.unread_makeRoom]; omega
    | failed reason => simp only [refill, Buffer.unread_makeRoom]; omega
    | bytes chunk =>
      have hlength := congrArg List.length (List.take_append_drop b.makeRoom.space chunk)
      rw [List.length_append] at hlength
      have hleft : Source.weight (if (chunk.drop b.makeRoom.space).isEmpty then source
          else .bytes (chunk.drop b.makeRoom.space) :: source) ≤
          (chunk.drop b.makeRoom.space).length + 1 + Source.weight source := by
        split
        · omega
        · exact Nat.le_refl _
      simp only [refill, ReadEvent.weight]
      split
      · next hnil =>
        simp only [Buffer.unread_makeRoom]
        omega
      · next got _ =>
        simp only [Buffer.append, List.length_append, Buffer.unread_makeRoom]
        omega

namespace Session

variable {set : TemplateSet} {s s' : Session}

/-- What the source can still serve, and what has been read but not decoded. -/
def supply (s : Session) : Nat := s.source.weight + s.buffer.unread.length

theorem supply_decoded (s : Session) : s.decoded.supply + s.attempt.consumed = s.supply := by
  have hle := Decoder.consumed_le s.decoder s.incoming s.buffer.unread
  simp only [supply, decoded, Buffer.unread_consume, List.length_drop]
  simp only [attempt] at *
  omega

theorem supply_await_le (s : Session) : s.await.session.supply ≤ s.supply := by
  have hrefill := Source.weight_refill_le s.options.blocking s.source s.buffer
  unfold Session.await
  dsimp only
  split <;> next h => rw [h] at hrefill; exact hrefill

theorem await_ne_message (s : Session) (m : Message) (s' : Session) :
    s.await ≠ .done (.ok (some m)) s' := by
  unfold Session.await
  dsimp only
  split <;> simp

theorem supply_dropDatagram_le (s : Session) : s.dropDatagram.supply ≤ s.supply := by
  simp [supply, dropDatagram]

theorem supply_deliver (s : Session) (slot : Nat) : (s.deliver slot).session.supply = s.supply := by
  unfold Session.deliver
  dsimp only
  split <;> rfl

/-- A turn adds nothing to the supply, and one that delivers a message uses some of it up. -/
theorem Sized.supply_turn (h : s.Sized set) :
    s.turn.session.supply ≤ s.supply ∧
      ∀ m s', s.turn = .done (.ok (some m)) s' → s'.supply < s.supply := by
  have hdecoded := s.supply_decoded
  rw [turn_eq]
  cases hresult : s.attempt.result with
  | ok slot =>
    -- A message takes a byte at the least, and its bytes were part of the supply.
    have hpos : 0 < s.attempt.consumed :=
      h.orderly.underway.consumed_pos fun hdry => by cases hresult.symm.trans hdry
    have hdeliver := s.decoded.supply_deliver slot
    dsimp only
    refine ⟨by omega, fun m s' hdone => ?_⟩
    rw [hdone] at hdeliver
    simp only [Turn.session] at hdeliver
    omega
  | error failure =>
    cases failure with
    | incomplete =>
      dsimp only
      split
      · refine ⟨?_, fun m s' hdone => nomatch hdone⟩
        exact s.decoded.supply_dropDatagram_le.trans (by omega)
      · refine ⟨?_, fun m s' hdone => (s.decoded.await_ne_message m s' hdone).elim⟩
        exact s.decoded.supply_await_le.trans (by omega)
    | garbled e =>
      dsimp only
      split
      · refine ⟨?_, fun m s' hdone => nomatch hdone⟩
        exact s.decoded.supply_dropDatagram_le.trans (by omega)
      · refine ⟨?_, fun m s' hdone => nomatch hdone⟩
        change s.decoded.supply ≤ s.supply
        omega

/-- A call adds nothing to the supply, and one that hands over a message uses some of it up. -/
theorem Sized.supply_receive (h : s.Sized set) :
    s.receive.2.supply ≤ s.supply ∧
      ∀ m, s.receive.1 = .ok (some m) → s.receive.2.supply < s.supply := by
  induction s using receive.induct with
  | case1 s answer s' ht =>
    obtain ⟨hle, hlt⟩ := h.supply_turn
    rw [ht] at hle
    rw [receive_of_done ht]
    exact ⟨hle, fun m hm => hlt m s' (ht.trans (congrArg (Turn.done · s') hm))⟩
  | case2 s s' ht ih =>
    have hle := h.supply_turn.1
    have hsized := h.turn
    rw [ht] at hle hsized
    rw [receive_of_again ht]
    obtain ⟨hle', hlt⟩ := ih hsized
    exact ⟨hle'.trans hle, fun m hm => (hlt m hm).trans_le hle⟩

end Session

namespace Feed

/-- What the feed can still bring, a closed one from the start. -/
def supply (f : Feed) (network : Network) : Nat :=
  match f.session with
  | some s => s.supply
  | none => ((network f.config.transport).map Source.weight).getD 0

/-- The session of the feed, if it has one, is as calls in order lead to. -/
def Sized (f : Feed) : Prop := ∀ s ∈ f.session, s.Sized f.templates

variable {f : Feed}

theorem Sized.openOn (h : f.Sized) (network : Network) : (f.openOn network).2.Sized := by
  unfold Feed.openOn
  cases hs : f.session with
  | some s => exact h
  | none =>
    cases network f.config.transport with
    | none => exact h
    | some source =>
      intro s hs
      obtain rfl := Option.some.inj hs
      exact Session.sized_create _ _ _

theorem supply_openOn (f : Feed) (network : Network) :
    (f.openOn network).2.supply network = f.supply network := by
  unfold Feed.openOn
  cases hs : f.session with
  | some s => rfl
  | none =>
    cases hsource : network f.config.transport with
    | none => rfl
    | some source => simp [supply, hs, hsource, Session.supply, Session.create, Buffer.create]

theorem receive_of_open {s : Session} (h : f.session = some s) :
    f.receive = (s.receive.1.mapError .session, { f with session := some s.receive.2 }) := by
  unfold Feed.receive
  rw [h]
  dsimp only
  rcases s.receive with ⟨answer, s'⟩
  cases answer <;> rfl

theorem receive_of_closed (h : f.session = none) : f.receive = (.ok none, f) := by
  rw [Feed.receive, h]

theorem Sized.receive (h : f.Sized) : f.receive.2.Sized := by
  cases hs : f.session with
  | none => rwa [receive_of_closed hs]
  | some s =>
    rw [receive_of_open hs]
    intro s' hs'
    obtain rfl := Option.some.inj hs'
    exact (h s hs).receive.1

/-- A message that a feed brings is taken from its supply. -/
theorem Sized.supply_receive (h : f.Sized) (network : Network) :
    f.receive.2.supply network ≤ f.supply network ∧
      ∀ m, f.receive.1 = .ok (some m) → f.receive.2.supply network < f.supply network := by
  cases hs : f.session with
  | none =>
    rw [receive_of_closed hs]
    exact ⟨le_rfl, fun m hm => nomatch hm⟩
  | some s =>
    obtain ⟨hle, hlt⟩ := (h s hs).supply_receive
    rw [receive_of_open hs]
    simp only [supply, hs]
    refine ⟨hle, fun m hm => hlt m ?_⟩
    cases hanswer : s.receive.1 with
    | error e =>
      rw [hanswer] at hm
      cases hm
    | ok found =>
      rw [hanswer] at hm
      exact congrArg Except.ok (Except.ok.inj hm)

end Feed

end MarketFeed
