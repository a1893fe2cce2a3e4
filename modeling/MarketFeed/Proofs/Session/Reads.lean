import MarketFeed.Proofs.Session.Expectation

/-!
# The reads of a call

A call to `receive` issues reads while its decoder runs dry, and again after each that was
interrupted. `Session.requests` lists them, each with what the source has for it and the buffer that
it is offered. They are all that the call takes from its source (`Session.leads_receive`).
-/

namespace MarketFeed

/-! ## The reads of a refill -/

/-- Whether a read that comes to this is made again. -/
def ReadEvent.isRetried (blocking : Bool) : ReadEvent → Bool
  | interrupted => true
  | wouldBlock => blocking
  | bytes _ | failed _ => false

/-- A read that is issued: what the source has for it, and the buffer with the room it is offered. -/
structure Request where
  source : Source
  buffer : Buffer
deriving DecidableEq, Repr

namespace Request

/-- What the read comes to. A source that has ended brings no bytes. -/
def answer (r : Request) : ReadEvent :=
  match r.source with
  | [] => .bytes []
  | .bytes chunk :: _ => .bytes (chunk.take r.buffer.space)
  | event :: _ => event

/-- What the read leaves of the source. -/
def left (r : Request) : Source :=
  match r.source with
  | [] => []
  | .bytes chunk :: source =>
    let left := chunk.drop r.buffer.space
    if left.isEmpty then source else .bytes left :: source
  | _ :: source => source

/-- What a refill comes to with this read, if it is not made again. -/
def settled (r : Request) : Refill × Source × Buffer :=
  match r.answer with
  | .bytes [] => (.ended, r.left, r.buffer)
  | .bytes got => (.read got.length, r.left, r.buffer.append got)
  | .interrupted | .wouldBlock => (.pending, r.left, r.buffer)
  | .failed reason => (.failed reason, r.left, r.buffer)

theorem length_le_of_answer {r : Request} {got : List UInt8} (h : r.answer = .bytes got) :
    got.length ≤ r.buffer.space := by
  obtain ⟨_ | ⟨event, later⟩, buffer⟩ := r
  · obtain rfl := ReadEvent.bytes.inj h
    exact Nat.zero_le _
  · cases event with
    | bytes chunk =>
      obtain rfl := ReadEvent.bytes.inj h
      exact List.length_take_le _ _
    | interrupted | wouldBlock | failed reason => cases h

/-- Where there is room, no bytes come only of a source that has ended or of an empty read. -/
theorem source_of_answer_nil {r : Request} (hroom : 0 < r.buffer.space)
    (h : r.answer = .bytes []) : r.source = [] ∨ ∃ later, r.source = .bytes [] :: later := by
  obtain ⟨_ | ⟨event, later⟩, buffer⟩ := r
  · exact .inl rfl
  · cases event with
    | bytes chunk =>
      rcases List.take_eq_nil_iff.1 (ReadEvent.bytes.inj h) with hzero | rfl
      · exact absurd hzero (Nat.ne_of_gt hroom)
      · exact .inr ⟨later, rfl⟩
    | interrupted | wouldBlock | failed reason => cases h

theorem left_settled (r : Request) : r.settled.2.1 = r.left := by
  unfold settled
  split <;> rfl

end Request

namespace Source

variable {blocking : Bool} {source : Source}

/-- Reads made one after the other lead from a source to what they leave of it. -/
def Leads : Source → List Request → Source → Prop
  | source, [], later => later = source
  | source, r :: requests, later => r.source = source ∧ Leads r.left requests later

theorem Leads.append {source source' source'' : Source} {requests later : List Request}
    (h : Leads source requests source') (h' : Leads source' later source'') :
    Leads source (requests ++ later) source'' := by
  induction requests generalizing source with
  | nil =>
    obtain rfl : source' = source := h
    exact h'
  | cons r requests ih => exact ⟨h.1, ih h.2⟩

/-- The reads that a refill issues, each of them with room made anew. -/
def requests (blocking : Bool) : Source → Buffer → List Request
  | [], b => [⟨[], b.makeRoom⟩]
  | event :: source, b =>
    ⟨event :: source, b.makeRoom⟩ ::
      if event.isRetried blocking then requests blocking source b.makeRoom else []

/-- Reads of a source that come to this: the last one does, and all before it are made again. -/
inductive Settles (blocking : Bool) : Source → List Request → Refill × Source × Buffer → Prop
  | last (r : Request) (answer : r.answer.isRetried blocking = false) :
      Settles blocking r.source [r] r.settled
  | again (r : Request) {later : List Request} {outcome : Refill × Source × Buffer}
      (answer : r.answer.isRetried blocking = true) (h : Settles blocking r.left later outcome) :
      Settles blocking r.source (r :: later) outcome

theorem Settles.exists_mem {requests : List Request} {outcome : Refill × Source × Buffer}
    (h : Settles blocking source requests outcome) : ∃ r ∈ requests, outcome = r.settled := by
  induction h with
  | last r => exact ⟨r, List.mem_singleton.2 rfl, rfl⟩
  | again _ _ _ ih =>
    obtain ⟨r, hr, houtcome⟩ := ih
    exact ⟨r, List.mem_cons_of_mem _ hr, houtcome⟩

theorem Settles.leads {requests : List Request} {outcome : Refill × Source × Buffer}
    (h : Settles blocking source requests outcome) : Leads source requests outcome.2.1 := by
  induction h with
  | last r => exact ⟨rfl, r.left_settled⟩
  | again _ _ _ ih => exact ⟨rfl, ih⟩

/-- These are the reads that a refill is made of. -/
theorem settles_requests (blocking : Bool) (source : Source) (b : Buffer) :
    Settles blocking source (source.requests blocking b) (refill blocking source b) := by
  induction source generalizing b with
  | nil => exact .last ⟨[], b.makeRoom⟩ rfl
  | cons event source ih =>
    let r : Request := ⟨event :: source, b.makeRoom⟩
    cases event with
    | interrupted => exact .again r rfl (ih b.makeRoom)
    | wouldBlock =>
      cases blocking with
      | true => exact .again r rfl (ih b.makeRoom)
      | false => exact .last r rfl
    | failed reason => exact .last r rfl
    | bytes chunk =>
      have hsettled : refill blocking (.bytes chunk :: source) b = r.settled := by
        simp only [refill, Request.settled, Request.answer, Request.left, r]
        cases chunk.take b.makeRoom.space <;> rfl
      rw [hsettled]
      exact .last r rfl

end Source

/-! ## The reads of a call -/

namespace Session

variable {s s' : Session}

/-- The reads that a turn issues: those of a refill, if the decoder has run dry for more bytes. -/
def turnRequests (s : Session) : List Request :=
  match s.attempt.result with
  | .error .incomplete =>
    if s.options.datagrams && s.decoded.isTruncated then []
    else s.source.requests s.options.blocking s.decoded.buffer
  | .error (.garbled _) | .ok _ => []

/-- The reads that a call to `receive` issues, turn by turn. -/
def requests (s : Session) : List Request :=
  s.turnRequests ++
    match _h : s.turn with
    | .done _ _ => []
    | .again s => s.requests
termination_by s.work
decreasing_by exact turn_again _h

theorem requests_of_done {answer : Except SessionError (Option Message)}
    (h : s.turn = .done answer s') : s.requests = s.turnRequests := by
  rw [requests.eq_def]
  split
  · exact List.append_nil _
  · next h' => cases h.symm.trans h'

theorem requests_of_again (h : s.turn = .again s') :
    s.requests = s.turnRequests ++ s'.requests := by
  rw [requests.eq_def]
  split
  · next h' => cases h.symm.trans h'
  · next h' =>
    obtain rfl := Turn.again.inj (h.symm.trans h')
    rfl

/-- The session that a turn leaves. -/
def Turn.session : Turn → Session
  | done _ s | again s => s

theorem source_await (s : Session) :
    s.await.session.source = (s.source.refill s.options.blocking s.buffer).2.1 := by
  unfold Session.await
  dsimp only
  split <;> next hrefill => rw [hrefill]; rfl

theorem source_deliver (s : Session) (slot : Nat) : (s.deliver slot).session.source = s.source := by
  unfold Session.deliver
  dsimp only
  split <;> rfl

theorem options_turn (s : Session) : s.turn.session.options = s.options := by
  rw [turn_eq]
  split
  · unfold deliver
    dsimp only
    split <;> rfl
  · split
    · rfl
    · unfold await
      dsimp only
      split <;> rfl
  · split <;> rfl

theorem options_receive (s : Session) : s.receive.2.options = s.options := by
  induction s using receive.induct with
  | case1 s answer s' ht =>
    have hturn := s.options_turn
    rw [ht] at hturn
    rwa [receive_of_done ht]
  | case2 s s' ht ih =>
    have hturn := s.options_turn
    rw [ht] at hturn
    rw [receive_of_again ht, ih]
    exact hturn

/-- A turn takes from the source what its reads do, and else nothing. -/
theorem leads_turn (s : Session) :
    Source.Leads s.source s.turnRequests s.turn.session.source := by
  rw [turn_eq, turnRequests]
  cases hresult : s.attempt.result with
  | ok slot => exact s.decoded.source_deliver slot
  | error failure =>
    cases failure with
    | incomplete =>
      dsimp only
      split
      · rfl
      · rw [source_await]
        exact (Source.settles_requests s.options.blocking s.source s.decoded.buffer).leads
    | garbled e =>
      dsimp only
      split <;> rfl

/-- A call takes from the source what its reads do, one after the other. -/
theorem leads_receive (s : Session) : Source.Leads s.source s.requests s.receive.2.source := by
  induction s using receive.induct with
  | case1 s answer s' ht =>
    have hturn := s.leads_turn
    rw [ht] at hturn
    rw [receive_of_done ht, requests_of_done ht]
    exact hturn
  | case2 s s' ht ih =>
    have hturn := s.leads_turn
    rw [ht] at hturn
    rw [receive_of_again ht, requests_of_again ht]
    exact hturn.append ih

end Session

end MarketFeed
