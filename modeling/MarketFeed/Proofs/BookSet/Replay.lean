import MarketFeed.Proofs.Arbiter.Runs
import MarketFeed.Proofs.BookSet.History

/-!
# A join loses and duplicates nothing

What a join has buffered is the end of what the arbiter has taken since its last restart. The
snapshot reaches into it, so whatever was taken before is behind the snapshot, and the increments
replayed are all those past it. `Event.Exact` says this of one replay; whatever happens in a run
keeps the arbiter in step with the history (`Tracks`), and with it every replay exact.
-/

namespace MarketFeed

/-- What has been taken since the last restart, once the events have followed on `log`. -/
def takenAfter (log : List Taken) : List Event → List Taken
  | [] => log
  | .taken t :: events => takenAfter (log ++ [t]) events
  | .restarted :: events => takenAfter [] events
  | .replayed .. :: events => takenAfter log events

/-- Every event is as it should be, given what had been taken before it. -/
def Each (P : List Taken → Event → Prop) (log : List Taken) (events : List Event) : Prop :=
  ∀ before event after, events = before ++ event :: after → P (takenAfter log before) event

/-- Nothing is taken behind the largest number, so that the numbers do not wrap. -/
def Event.Unwrapped (log : List Taken) : Event → Prop
  | .taken _ => ∀ t ∈ log, t.number.toNat < 0xFFFFFFFFFFFFFFFF
  | .restarted | .replayed .. => True

instance (log : List Taken) : (event : Event) → Decidable (event.Unwrapped log)
  | .taken _ => inferInstanceAs (Decidable (∀ t ∈ log, t.number.toNat < 0xFFFFFFFFFFFFFFFF))
  | .restarted | .replayed .. => .isTrue trivial

/-- The increments taken whose number is past `last`. -/
def dueAfter (last : UInt64) (log : List Taken) : List Taken :=
  log.filter fun t => t.located.isRefresh && decide (last < t.number)

/-- Applies one increment after another, and counts them: `none` as soon as the book is lost. -/
def applyInTurn (target : Nat) : List Located → Books → Option Nat × Books
  | [], bs => (some 0, bs)
  | located :: rest, bs =>
    let (lost, bs) := bs.applyIncrement located.message located.layout (.replay target)
    if lost.contains target then (none, bs)
    else
      let (n, bs) := applyInTurn target rest bs
      (n.map (· + 1), bs)

/--
A replay applies just the increments past the snapshot that have been taken since the last restart,
each once and in the order of their numbers, until the book is lost.
-/
def Event.Exact (log : List Taken) : Event → Prop
  | .replayed target last buffered =>
    (∀ bs, BookSet.replay target last buffered bs =
        applyInTurn target ((dueAfter last log).map Taken.located) bs) ∧
      (dueAfter last log).Pairwise (·.number < ·.number) ∧
      ∀ t ∈ log, t.located.layout.seqNumOf t.located.message = some t.number
  | .taken _ | .restarted => True

section

variable {P : List Taken → Event → Prop} {log : List Taken}

theorem takenAfter_append (log : List Taken) (events later : List Event) :
    takenAfter log (events ++ later) = takenAfter (takenAfter log events) later := by
  induction events generalizing log with
  | nil => rfl
  | cons event events ih => cases event <;> exact ih _

theorem takenAfter_taken (log ts : List Taken) :
    takenAfter log (ts.map .taken) = log ++ ts := by
  induction ts generalizing log with
  | nil => simp [takenAfter]
  | cons t ts ih => simp [takenAfter, ih]

theorem Each.nil (P : List Taken → Event → Prop) (log : List Taken) : Each P log [] := by
  intro before event after h
  simp at h

theorem Each.cons {event : Event} {events : List Event} (h : P log event)
    (hs : Each P (takenAfter log [event]) events) : Each P log (event :: events) := by
  intro before event' after heq
  cases before with
  | nil =>
    obtain ⟨rfl, -⟩ := List.cons.inj heq
    exact h
  | cons first before =>
    obtain ⟨rfl, htail⟩ := List.cons.inj heq
    have := hs before event' after htail
    rwa [← takenAfter_append] at this

theorem Each.head {event : Event} {events : List Event} (h : Each P log (event :: events)) :
    P log event := h [] event events rfl

theorem Each.tail {event : Event} {events : List Event} (h : Each P log (event :: events)) :
    Each P (takenAfter log [event]) events := by
  intro before event' after heq
  have := h (event :: before) event' after (by rw [heq]; rfl)
  rwa [← List.singleton_append, takenAfter_append] at this

theorem each_cons {event : Event} {events : List Event} :
    Each P log (event :: events) ↔ P log event ∧ Each P (takenAfter log [event]) events :=
  ⟨fun h => ⟨h.head, h.tail⟩, fun h => .cons h.1 h.2⟩

instance decidableEach [∀ log event, Decidable (P log event)] (log : List Taken) :
    (events : List Event) → Decidable (Each P log events)
  | [] => .isTrue (.nil P log)
  | event :: events =>
    have := decidableEach (takenAfter log [event]) events
    decidable_of_iff _ each_cons.symm

theorem each_append {events later : List Event} :
    Each P log (events ++ later) ↔ Each P log events ∧ Each P (takenAfter log events) later := by
  induction events generalizing log with
  | nil => exact ⟨fun h => ⟨.nil P log, h⟩, fun h => h.2⟩
  | cons event events ih =>
    have hlog : takenAfter log (event :: events) = takenAfter (takenAfter log [event]) events :=
      takenAfter_append log [event] events
    rw [List.cons_append, hlog]
    constructor
    · intro h
      obtain ⟨hevents, hlater⟩ := ih.1 h.tail
      exact ⟨.cons h.head hevents, hlater⟩
    · intro h
      exact .cons h.1.head (ih.2 ⟨h.1.tail, h.2⟩)

end

/-! ## The arbiter -/

/-- The arbiter knows the last number of the log, whose numbers only go up. -/
structure Follows (a : Arbiter) (log : List Taken) : Prop where
  last : a.last = log.getLast?.map Taken.number
  increasing : log.Pairwise (·.number < ·.number)
  numbered : ∀ t ∈ log, t.located.layout.seqNumOf t.located.message = some t.number

/-- These events lead from one condition on the log to the other, and every replay is exact. -/
def Tracks (pre : List Taken → Prop) (events : List Event) (post : List Taken → Prop) : Prop :=
  ∀ log, pre log → Each Event.Unwrapped log events →
    Each Event.Exact log events ∧ post (takenAfter log events)

namespace Tracks

variable {pre mid post : List Taken → Prop} {events later : List Event}

theorem nil (h : ∀ log, pre log → post log) : Tracks pre [] post :=
  fun log hlog _ => ⟨.nil _ log, h log hlog⟩

theorem append (h : Tracks pre events mid) (h' : Tracks mid later post) :
    Tracks pre (events ++ later) post := by
  intro log hlog hwrap
  rw [each_append] at hwrap
  obtain ⟨hexact, hmid⟩ := h log hlog hwrap.1
  obtain ⟨hexact', hpost⟩ := h' _ hmid hwrap.2
  rw [takenAfter_append]
  exact ⟨each_append.2 ⟨hexact, hexact'⟩, hpost⟩

theorem restarted (a : Arbiter) : Tracks pre [.restarted] (Follows a.reset) := by
  intro log _ _
  exact ⟨.cons trivial (.nil _ _), rfl, .nil, by simp [takenAfter]⟩

end Tracks

theorem follows_create (feeds : Nat) : Follows (.create feeds) [] := ⟨rfl, .nil, by simp⟩

theorem getLast?_number {log : List Taken} {last : UInt64}
    (h : some last = log.getLast?.map Taken.number) :
    ∃ front t, log = front ++ [t] ∧ t.number = last := by
  obtain ⟨t, ht, hnumber⟩ := Option.map_eq_some_iff.1 h.symm
  obtain ⟨front, rfl⟩ := List.getLast?_eq_some_iff.1 ht
  exact ⟨front, t, rfl, hnumber⟩

/-- What is taken is the first of its stream or larger than all before it. -/
theorem lt_of_observe {a : Arbiter} {feed : Nat} {number : UInt64}
    (h : (a.observe feed number).1.isAccepted = true) {log : List Taken} (hlog : Follows a log)
    (hwrap : ∀ t ∈ log, t.number.toNat < 0xFFFFFFFFFFFFFFFF) : ∀ t ∈ log, t.number < number := by
  intro u hu
  cases hlast : a.last with
  | none =>
    have := hlog.last
    rw [hlast, eq_comm, Option.map_eq_none_iff, List.getLast?_eq_none_iff] at this
    rw [this] at hu
    cases hu
  | some last =>
    obtain ⟨front, t, rfl, ht⟩ := getLast?_number (hlast.symm.trans hlog.last)
    have hnext := Arbiter.isAccepted_observe.1 h last hlast
    have hroom := hwrap t (by simp)
    have hlt : t.number < number := by
      rw [hnext, ← ht, UInt64.lt_iff_toNat_lt, UInt64.toNat_add]
      simp only [UInt64.toNat_one]
      omega
    rcases List.mem_append.1 hu with hu | hu
    · have := (List.pairwise_append.1 hlog.increasing).2.2 u hu t (by simp)
      exact UInt64.lt_trans this hlt
    · rw [List.mem_singleton.1 hu]
      exact hlt

theorem Follows.congr {a a' : Arbiter} {log : List Taken} (h : Follows a log)
    (hlast : a'.last = a.last) : Follows a' log :=
  ⟨hlast.trans h.last, h.increasing, h.numbered⟩

/-- The increments among what was taken. -/
def refreshes (ts : List Taken) : List Located :=
  (ts.filter fun t => t.located.isRefresh).map Taken.located

theorem refreshes_append (ts us : List Taken) :
    refreshes (ts ++ us) = refreshes ts ++ refreshes us := by
  simp [refreshes]

theorem message_of_place? {layouts : Layouts} {m : Message} {located : Located}
    (h : layouts.place? m = some located) : located.message = m := by
  unfold Layouts.place? at h
  split at h
  · cases h
  · obtain ⟨layout, -, rfl⟩ := Option.map_eq_some_iff.1 h
    rfl

theorem tracks_judge (w : Watch) (layouts : Layouts) (feed : Nat) (m : Message) :
    Tracks (Follows w.arbiter) ((w.takenOf layouts feed m).map .taken)
        (Follows (w.judge layouts feed m).2.arbiter) ∧
      (w.judge layouts feed m).1.toList = refreshes (w.takenOf layouts feed m) := by
  unfold Watch.takenOf Watch.judge
  cases hplace : layouts.place? m with
  | none => exact ⟨.nil fun _ h => h, rfl⟩
  | some located =>
    have hmessage := message_of_place? hplace
    dsimp only
    cases hnumber : located.layout.seqNumOf m with
    | none => exact ⟨.nil fun _ h => h, rfl⟩
    | some number =>
      have harbiter : (w.observe feed number).2.arbiter = (w.arbiter.observe feed number).2 := rfl
      have htaken : (w.observe feed number).1 = (w.arbiter.observe feed number).1.isAccepted := rfl
      rcases hobserve : w.observe feed number with ⟨taken, w'⟩
      rw [hobserve] at harbiter htaken
      dsimp only at harbiter htaken ⊢
      cases taken with
      | false =>
        simp only [hobserve, Bool.false_eq_true, if_false, false_and]
        refine ⟨fun log hlog _ => ⟨.nil _ _, hlog.congr ?_⟩, rfl⟩
        rw [harbiter]
        exact Arbiter.last_observe_of_rejected htaken.symm
      | true =>
        have htracks :
            Tracks (Follows w.arbiter) [.taken ⟨number, located⟩] (Follows w'.arbiter) := by
          intro log hlog hwrap
          have hlt := lt_of_observe htaken.symm hlog hwrap.head
          have hlast := Arbiter.last_observe_of_accepted htaken.symm
          refine ⟨.cons trivial (.nil _ _), ?_, ?_, ?_⟩
          · rw [harbiter, hlast]
            simp [takenAfter]
          · simp only [takenAfter]
            refine List.pairwise_append.2 ⟨hlog.increasing, List.pairwise_singleton _ _, ?_⟩
            intro t ht u hu
            rw [List.mem_singleton.1 hu]
            exact hlt t ht
          · intro t ht
            rcases List.mem_append.1 ht with ht | ht
            · exact hlog.numbered t ht
            · rw [List.mem_singleton.1 ht, hmessage]
              exact hnumber
        simp only [hobserve, if_true, true_and]
        split
        · next hrefresh =>
          refine ⟨htracks, ?_⟩
          rw [← hmessage] at hrefresh
          simp [refreshes, Located.isRefresh, hrefresh]
        · next hrefresh =>
          refine ⟨htracks, ?_⟩
          rw [← hmessage] at hrefresh
          simp [refreshes, Located.isRefresh, hrefresh]

theorem tracks_pollIncrements (layouts : Layouts) (i : Nat) (feeds : List Feed) (w : Watch) :
    Tracks (Follows w.arbiter) ((takenBy layouts i feeds w).map .taken)
        (Follows (pollIncrements layouts i feeds w).watch.arbiter) ∧
      ∀ taken, (pollIncrements layouts i feeds w).taken = .ok taken →
        taken = refreshes (takenBy layouts i feeds w) := by
  induction feeds generalizing i w with
  | nil => exact ⟨.nil fun _ h => h, fun taken h => (Except.ok.inj h).symm⟩
  | cons f feeds ih =>
    simp only [takenBy, pollIncrements]
    split
    · exact ih (i + 1) w
    · rcases f.receive with ⟨result, f'⟩
      rcases result with e | m
      · exact ⟨.nil fun _ h => h, by simp⟩
      · cases m with
        | none => exact ih (i + 1) w
        | some m =>
          obtain ⟨hjudge, hlocated⟩ := tracks_judge w layouts i m
          obtain ⟨htracks, htaken⟩ := ih (i + 1) (w.judge layouts i m).2
          rw [List.map_append]
          refine ⟨hjudge.append htracks, fun taken h => ?_⟩
          cases hp : (pollIncrements layouts (i + 1) feeds (w.judge layouts i m).2).taken with
          | error e => simp [hp, Except.map] at h
          | ok later =>
            simp only [hp, Except.map, Except.ok.injEq] at h
            rw [← h, refreshes_append, htaken later hp, hlocated]

end MarketFeed
