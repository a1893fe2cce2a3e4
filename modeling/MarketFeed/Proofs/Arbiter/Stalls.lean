import MarketFeed.Proofs.Arbiter.Runs

/-!
# Stalls

A stall is declared just when no feed may be read any more (`Polled.stalled_iff_unreadable`), so
that a feed that may be read is never given up and one that may not is never waited for. What is
missing then can no longer be brought by anyone (`Polled.unfillable`). It may have been delivered,
though: a feed that jumps ahead loses the number that it jumps to.
-/

namespace MarketFeed.Arbiter

variable {a : Arbiter} {feeds feed : Nat} {calls : List Call}

/-- Every observation of the run is of one of the feeds, and one that may be read just then. -/
inductive Polled (feeds : Nat) : List Call → Prop
  | nil : Polled feeds []
  | observe {calls : List Call} (h : Polled feeds calls) {feed : Nat} (hfeed : feed < feeds)
      (hpoll : (run feeds calls).shouldPoll feed = true) (number : UInt64) :
      Polled feeds (calls ++ [.observe feed number])
  | reset {calls : List Call} (h : Polled feeds calls) : Polled feeds (calls ++ [.reset])

theorem shouldPoll_eq_false_iff :
    a.shouldPoll feed = false ↔
      ∃ received last, a.received[feed]? = some (some received) ∧ a.last = some last ∧
        last < received := by
  unfold shouldPoll
  rcases a.received[feed]? with _ | _ | received
  · simp
  · simp
  · cases a.last with
    | none => simp
    | some last => simp [UInt64.not_le]

theorem isStalled_iff :
    a.isStalled = true ↔
      ∃ last, a.last = some last ∧ a.inGap = true ∧
        ∀ r ∈ a.received, ∃ received, r = some received ∧ last < received := by
  unfold isStalled
  cases a.last with
  | none => simp
  | some last =>
    simp only [Bool.and_eq_true, List.all_eq_true, Option.some.injEq, exists_eq_left']
    refine and_congr_right fun _ => forall₂_congr fun r _ => ?_
    cases r <;> simp

/-- A feed that was just observed may be read again, or has opened or met a gap. -/
theorem inGap_or_shouldPoll_observe (hfeed : feed < a.received.length) (number : UInt64) :
    (a.observe feed number).2.inGap = true ∨
      (a.observe feed number).2.shouldPoll feed = true := by
  have hreceived := a.received_observe feed number
  have hjudges := a.judges_observe feed number
  generalize (a.observe feed number).1 = verdict at hjudges
  generalize (a.observe feed number).2 = b at hreceived hjudges ⊢
  have hget : (b.received[feed]?).join = some number := by
    rw [hreceived, List.getElem?_set_self hfeed]
    rfl
  unfold shouldPoll
  rw [hget]
  obtain ⟨last', received', inGap', gaps', totalMissing'⟩ := b
  cases hjudges with
  | first => exact .inr (by simp)
  | next => exact .inr (by simp)
  | gap => exact .inl rfl
  | ahead => exact .inl rfl
  | duplicate h hnext hle => exact .inr (by simpa using hle)

/-- Where no feed may be read, a gap is open: it is the last observation that tells. -/
theorem Polled.inGap (h : Polled feeds calls) (hfeeds : 0 < feeds)
    (hall : ∀ feed < feeds, (run feeds calls).shouldPoll feed = false) :
    (run feeds calls).inGap = true := by
  cases h with
  | nil =>
    obtain ⟨_, last, -, hlast, -⟩ := shouldPoll_eq_false_iff.1 (hall 0 hfeeds)
    cases hlast
  | @observe calls _ feed hfeed hpoll number =>
    rw [run_observe] at hall ⊢
    rcases inGap_or_shouldPoll_observe (a := run feeds calls) (by rwa [length_received_run]) number with
      hgap | hread
    · exact hgap
    · rw [hall feed hfeed] at hread
      cases hread
  | reset =>
    rw [run_reset] at hall
    obtain ⟨_, last, -, hlast, -⟩ := shouldPoll_eq_false_iff.1 (hall 0 hfeeds)
    cases hlast

/-- A stall is declared if and only if no feed may be read. -/
theorem Polled.stalled_iff_unreadable (h : Polled feeds calls) (hfeeds : 0 < feeds) :
    (run feeds calls).isStalled = true ↔
      ∀ feed < feeds, (run feeds calls).shouldPoll feed = false := by
  rw [isStalled_iff]
  constructor
  · rintro ⟨last, hlast, -, hreceived⟩ feed hfeed
    have hlt : feed < (run feeds calls).received.length := by
      rwa [length_received_run]
    obtain ⟨received, hget, hlt'⟩ := hreceived _ (List.getElem_mem hlt)
    exact shouldPoll_eq_false_iff.2
      ⟨received, last, by rw [List.getElem?_eq_getElem hlt, hget], hlast, hlt'⟩
  · intro hall
    obtain ⟨_, last, -, hlast, -⟩ := shouldPoll_eq_false_iff.1 (hall 0 hfeeds)
    refine ⟨last, hlast, h.inGap hfeeds hall, fun r hr => ?_⟩
    obtain ⟨feed, hlt, rfl⟩ := List.getElem_of_mem hr
    obtain ⟨received, last', hget, hlast', hahead⟩ :=
      shouldPoll_eq_false_iff.1 (hall feed (by rwa [length_received_run] at hlt))
    rw [hlast] at hlast'
    obtain rfl := Option.some.inj hlast'
    rw [List.getElem?_eq_getElem hlt] at hget
    exact ⟨received, Option.some.inj hget, hahead⟩

/-- Both feeds jump over a number. What the second one lost, the first one has brought. -/
def jumps : List Call := [.observe 0 1, .observe 0 3, .observe 1 2, .observe 1 4]

theorem polled_jumps : Polled 2 jumps :=
  .observe (.observe (.observe (.observe .nil (by decide) (by decide) 1) (by decide) (by decide) 3)
    (by decide) (by decide) 2) (by decide) (by decide) 4

theorem Polled.stalled_iff_unreadable_jumps :
    Polled 2 jumps ∧ 0 < 2 ∧
      ((run 2 jumps).isStalled = true ↔ ∀ feed < 2, (run 2 jumps).shouldPoll feed = false) :=
  ⟨polled_jumps, by decide, polled_jumps.stalled_iff_unreadable (by decide)⟩

/-! ## What a stall is about -/

/-- The numbers that a feed brings go up. -/
def Increasing (log : List Sighting) : Prop :=
  log.Pairwise fun s t => s.feed = t.feed → s.number < t.number

instance (log : List Sighting) : Decidable (Increasing log) :=
  inferInstanceAs (Decidable (List.Pairwise _ log))

theorem Polled.feed_lt (h : Polled feeds calls) {s : Sighting} (hs : s ∈ log feeds calls) :
    s.feed < feeds := by
  induction h with
  | nil => cases hs
  | reset => rw [log_reset] at hs; cases hs
  | observe _ hfeed _ number ih =>
    rw [log_observe] at hs
    rcases List.mem_append.1 hs with hs | hs
    · exact ih hs
    · rwa [List.mem_singleton.1 hs]

/-- The number kept of a feed is one that it brought. -/
theorem mem_log_of_received {received : UInt64}
    (h : (run feeds calls).received[feed]? = some (some received)) :
    ∃ s ∈ log feeds calls, s.feed = feed ∧ s.number = received := by
  induction calls using List.reverseRecOn with
  | nil => simp [create, List.getElem?_replicate] at h
  | append_singleton calls c ih =>
    cases c with
    | reset =>
      rw [run_reset, Arbiter.reset, List.getElem?_map, Option.map_eq_some_iff] at h
      obtain ⟨_, -, h⟩ := h
      cases h
    | observe feed' number =>
      rw [log_observe]
      rw [run_observe, received_observe, List.getElem?_set] at h
      split at h
      · next heq =>
        split at h
        · obtain rfl := Option.some.inj (Option.some.inj h)
          exact ⟨_, List.mem_append_right _ (List.mem_singleton_self _), heq, rfl⟩
        · cases h
      · obtain ⟨s, hs, hfeed, hnumber⟩ := ih h
        exact ⟨s, List.mem_append_left _ hs, hfeed, hnumber⟩

/-- A number that another one is past does not wrap. -/
theorem toNat_add_one_of_lt {last received : UInt64} (h : last < received) :
    (last + 1).toNat = last.toNat + 1 := by
  have hlt := received.toNat_lt
  rw [UInt64.lt_iff_toNat_lt] at h
  rw [UInt64.toNat_add, UInt64.toNat_one]
  omega

/-- What is taken is not below what was taken before, unless the numbers wrap. -/
theorem le_last_observe {number last : UInt64} (hlast : a.last = some last)
    (hwrap : (a.observe feed number).1.isAccepted = true → number ≠ 0) :
    ∃ last', (a.observe feed number).2.last = some last' ∧ last ≤ last' := by
  rw [last_observe]
  split
  · next haccepted =>
    have hpos := hwrap haccepted
    have hlt := last.toNat_lt
    rw [isAccepted_observe.1 haccepted last hlast] at hpos ⊢
    refine ⟨last + 1, rfl, ?_⟩
    rw [ne_eq, ← UInt64.toNat_inj, UInt64.toNat_add] at hpos
    rw [UInt64.le_iff_toNat_le, UInt64.toNat_add]
    simp only [UInt64.toNat_one, UInt64.toNat_zero] at hpos ⊢
    omega
  · exact ⟨last, hlast, UInt64.le_refl last⟩

/--
What an observation leaves behind: its number has been passed, or it came ahead of time, and its
feed has not been read since.
-/
def Lingers (a : Arbiter) (s : Sighting) (later : List Sighting) (last : UInt64) : Prop :=
  s.number ≤ last ∨
    s.verdict.isAhead = true ∧ a.received[s.feed]? = some (some s.number) ∧
      ∀ t ∈ later, t.feed ≠ s.feed

theorem lingers_observe {number : UInt64} (hfeed : feed < a.received.length) :
    ∃ last, (a.observe feed number).2.last = some last ∧
      Lingers (a.observe feed number).2 ⟨feed, number, (a.observe feed number).1⟩ [] last := by
  have hreceived : (a.observe feed number).2.received[feed]? = some (some number) := by
    rw [received_observe, List.getElem?_set_self hfeed]
  have hjudges := a.judges_observe feed number
  unfold Lingers
  generalize (a.observe feed number).1 = verdict at hjudges ⊢
  generalize (a.observe feed number).2 = b at hreceived hjudges ⊢
  obtain ⟨last', received', inGap', gaps', totalMissing'⟩ := b
  cases hjudges with
  | first => exact ⟨number, rfl, .inl (UInt64.le_refl number)⟩
  | next => exact ⟨number, rfl, .inl (UInt64.le_refl number)⟩
  | @gap last => exact ⟨last, rfl, .inr ⟨rfl, hreceived, by simp⟩⟩
  | @ahead last => exact ⟨last, rfl, .inr ⟨rfl, hreceived, by simp⟩⟩
  | @duplicate last _ _ hle => exact ⟨last, rfl, .inl hle⟩

/-- As long as the numbers do not wrap, what has been passed stays passed, and a feed that is ahead
is not read. -/
theorem Lingers.observe {s : Sighting} {later : List Sighting} {last number : UInt64}
    (h : Lingers a s later last) (hlast : a.last = some last) (hpoll : a.shouldPoll feed = true)
    (hwrap : (a.observe feed number).1.isAccepted = true → number ≠ 0) :
    ∃ last', (a.observe feed number).2.last = some last' ∧
      Lingers (a.observe feed number).2 s
        (later ++ [⟨feed, number, (a.observe feed number).1⟩]) last' := by
  obtain ⟨last', hlast', hle⟩ := le_last_observe hlast hwrap
  refine ⟨last', hlast', ?_⟩
  rcases h with hpassed | ⟨hahead, hreceived, hunread⟩
  · exact .inl (UInt64.le_trans hpassed hle)
  · by_cases hfeed : s.feed = feed
    · -- The feed may be read again, so that its number has been passed in the meantime.
      left
      rw [hfeed] at hreceived
      have hle' : s.number ≤ last := by
        by_contra hlt
        rw [shouldPoll_eq_false_iff.2 ⟨s.number, last, hreceived, hlast, UInt64.not_le.1 hlt⟩]
          at hpoll
        cases hpoll
      exact UInt64.le_trans hle' hle
    · refine .inr ⟨hahead, ?_, fun t ht => ?_⟩
      · rwa [received_observe, List.getElem?_set_ne (fun heq => hfeed heq.symm)]
      · rcases List.mem_append.1 ht with ht | ht
        · exact hunread t ht
        · rw [List.mem_singleton.1 ht]
          exact fun heq => hfeed heq.symm

theorem Polled.lingers (h : Polled feeds calls) {early later : List Sighting} {s : Sighting}
    (hlog : log feeds calls = early ++ s :: later)
    (hwrap : ∀ t ∈ later, t.verdict.isAccepted = true → t.number ≠ 0) :
    ∃ last, (run feeds calls).last = some last ∧ Lingers (run feeds calls) s later last := by
  induction h generalizing later with
  | nil => simp at hlog
  | reset => simp at hlog
  | @observe calls h feed hfeed hpoll number ih =>
    rw [log_observe] at hlog
    rw [run_observe]
    rcases List.eq_nil_or_concat later with rfl | ⟨later, t, rfl⟩
    · obtain ⟨-, hs⟩ := List.append_inj' hlog rfl
      obtain rfl := List.singleton_inj.1 hs
      exact lingers_observe (by rwa [length_received_run])
    · rw [List.concat_eq_append, ← List.cons_append, ← List.append_assoc] at hlog
      obtain ⟨hfront, ht⟩ := List.append_inj' hlog rfl
      obtain rfl := List.singleton_inj.1 ht
      rw [List.concat_eq_append] at hwrap ⊢
      obtain ⟨last, hlast, hlingers⟩ := ih hfront fun t ht => hwrap t (List.mem_append_left _ ht)
      exact hlingers.observe hlast hpoll
        (hwrap _ (List.mem_append_right _ (List.mem_singleton_self _)))

/--
When a stall is declared, the number that is missing was observed since the last reset only where a
feed jumped to it ahead of time and has not been read since, unless the numbers taken have wrapped
around zero in between. And as long as the numbers of every feed go up, none of them brings it any
more, wrapped or not.
-/
theorem Polled.unfillable (h : Polled feeds calls) (hstalled : (run feeds calls).isStalled = true)
    {last : UInt64} (hlast : (run feeds calls).last = some last) :
    (∀ early s later, log feeds calls = early ++ s :: later → s.number = last + 1 →
      (s.verdict.isAhead = true ∧ ∀ t ∈ later, t.feed ≠ s.feed) ∨
        ∃ t ∈ later, t.verdict.isAccepted = true ∧ t.number = 0) ∧
    ∀ later, Increasing (log feeds calls ++ later) →
      ∀ s ∈ later, s.feed < feeds → s.number ≠ last + 1 := by
  obtain ⟨last', hlast', -, hreceived⟩ := isStalled_iff.1 hstalled
  rw [hlast] at hlast'
  obtain rfl := Option.some.inj hlast'
  have hahead (feed : Nat) (hfeed : feed < feeds) : ∃ received,
      (run feeds calls).received[feed]? = some (some received) ∧ last < received := by
    have hlt : feed < (run feeds calls).received.length := by
      rwa [length_received_run]
    obtain ⟨received, hget, hahead⟩ := hreceived _ (List.getElem_mem hlt)
    exact ⟨received, by rw [List.getElem?_eq_getElem hlt, hget], hahead⟩
  constructor
  · intro early s later hlog hnumber
    by_cases hwrap : ∃ t ∈ later, t.verdict.isAccepted = true ∧ t.number = 0
    · exact .inr hwrap
    · left
      obtain ⟨last', hlast', hlingers⟩ := h.lingers hlog
        fun t ht haccepted hzero => hwrap ⟨t, ht, haccepted, hzero⟩
      rw [hlast] at hlast'
      obtain rfl := Option.some.inj hlast'
      rcases hlingers with hle | ⟨hverdict, -, hunread⟩
      · -- Some feed is past the missing number, so that there is one after the last.
        obtain ⟨received, -, hlt⟩ := hahead s.feed
          (h.feed_lt (hlog ▸ List.mem_append_right _ List.mem_cons_self))
        rw [hnumber] at hle
        rw [UInt64.le_iff_toNat_le, toNat_add_one_of_lt hlt] at hle
        omega
      · exact ⟨hverdict, hunread⟩
  · intro later hincreasing s hs hfeed hnumber
    obtain ⟨received, hget, hlt⟩ := hahead s.feed hfeed
    obtain ⟨t, ht, hsame, rfl⟩ := mem_log_of_received hget
    have hup := (List.pairwise_append.1 hincreasing).2.2 t ht s hs hsame
    rw [hnumber, UInt64.lt_iff_toNat_lt, toNat_add_one_of_lt hlt] at hup
    rw [UInt64.lt_iff_toNat_lt] at hlt
    omega

/--
The first feed has delivered the number that the stall is declared for. It was dropped, since it
came ahead of the one before it.
-/
theorem Polled.stalled_on_delivered :
    Polled 2 jumps ∧ Increasing (log 2 jumps) ∧ (run 2 jumps).isStalled = true ∧
      (run 2 jumps).last = some 2 ∧ ⟨0, 2 + 1, .gap 1⟩ ∈ log 2 jumps :=
  ⟨polled_jumps, by decide, by decide, by decide, by decide⟩

theorem Polled.unfillable_jumps :
    Polled 2 jumps ∧ (run 2 jumps).isStalled = true ∧ (run 2 jumps).last = some 2 ∧
      (∀ early s later, log 2 jumps = early ++ s :: later → s.number = 2 + 1 →
        (s.verdict.isAhead = true ∧ ∀ t ∈ later, t.feed ≠ s.feed) ∨
          ∃ t ∈ later, t.verdict.isAccepted = true ∧ t.number = 0) ∧
      ∀ later, Increasing (log 2 jumps ++ later) →
        ∀ s ∈ later, s.feed < 2 → s.number ≠ 2 + 1 :=
  ⟨polled_jumps, by decide, by decide, polled_jumps.unfillable (by decide) (by decide)⟩

/-- Where the numbers wrap, what came long before counts as a duplicate and is missed later on. -/
example :
    let calls : List Call := [.observe 0 0xFFFFFFFFFFFFFFFE, .observe 2 3,
      .observe 0 0xFFFFFFFFFFFFFFFF, .observe 1 0, .observe 1 1, .observe 1 2, .observe 1 4]
    (run 3 calls).isStalled = true ∧ (run 3 calls).last = some 2 ∧
      Increasing (log 3 calls) ∧ ⟨2, 3, .duplicate⟩ ∈ log 3 calls := by decide

end MarketFeed.Arbiter
