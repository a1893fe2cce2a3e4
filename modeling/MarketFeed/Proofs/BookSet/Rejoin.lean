import MarketFeed.Proofs.BookSet.Join
import MarketFeed.Proofs.BookSet.Skips
import MarketFeed.Proofs.Session.Supply

/-!
# Recoveries come to an end

A join makes as many polls as it may and no more. A rejoin begins another join as long as some book
is missing, be it one that an earlier join has cost its place; but no join succeeds without a
message from the increment feeds, and these can only bring so many (`Metered.supply_join`). So the
rejoin itself, told without a bound on its joins (`Rejoins`), is over after finitely many.
-/

namespace MarketFeed

/-! ## What the increment feeds can still bring -/

def feedsSupply (network : Network) (feeds : List Feed) : Nat :=
  (feeds.map (·.supply network)).foldr (· + ·) 0

/-- A poll adds nothing to what the feeds can bring, and uses some of it up if anything is taken. -/
theorem feedsSupply_pollIncrements (layouts : Layouts) (network : Network) (i : Nat)
    {feeds : List Feed} (w : Watch) (h : ∀ f ∈ feeds, f.Sized) :
    (∀ f ∈ (pollIncrements layouts i feeds w).feeds, f.Sized) ∧
      feedsSupply network (pollIncrements layouts i feeds w).feeds ≤ feedsSupply network feeds ∧
      (takenBy layouts i feeds w ≠ [] →
        feedsSupply network (pollIncrements layouts i feeds w).feeds <
          feedsSupply network feeds) := by
  induction feeds generalizing i w with
  | nil => exact ⟨h, le_rfl, fun htaken => (htaken rfl).elim⟩
  | cons f feeds ih =>
    obtain ⟨hf, hfeeds⟩ := List.forall_mem_cons.1 h
    have hreceived := hf.receive
    obtain ⟨hle, hlt⟩ := hf.supply_receive network
    simp only [takenBy, pollIncrements]
    split
    · obtain ⟨hsized, hrest, hrest'⟩ := ih (i + 1) w hfeeds
      exact ⟨List.forall_mem_cons.2 ⟨hf, hsized⟩, Nat.add_le_add_left hrest _,
        fun htaken => Nat.add_lt_add_left (hrest' htaken) _⟩
    · rcases hreceive : f.receive with ⟨result, f'⟩
      rw [hreceive] at hreceived hle hlt
      rcases result with e | m
      · exact ⟨List.forall_mem_cons.2 ⟨hreceived, hfeeds⟩, Nat.add_le_add_right hle _,
          fun htaken => (htaken rfl).elim⟩
      · cases m with
        | none =>
          obtain ⟨hsized, hrest, hrest'⟩ := ih (i + 1) w hfeeds
          exact ⟨List.forall_mem_cons.2 ⟨hreceived, hsized⟩, Nat.add_le_add hle hrest,
            fun htaken => Nat.add_lt_add_of_le_of_lt hle (hrest' htaken)⟩
        | some m =>
          obtain ⟨hsized, hrest, -⟩ := ih (i + 1) (w.judge layouts i m).2 hfeeds
          have hused := Nat.add_lt_add_of_lt_of_le (hlt m rfl) hrest
          exact ⟨List.forall_mem_cons.2 ⟨hreceived, hsized⟩, hused.le, fun _ => hused⟩

namespace BookSet

theorem feedsSupply_openFeeds (network : Network) {feeds : List Feed} (h : ∀ f ∈ feeds, f.Sized) :
    (∀ f ∈ (openFeeds network feeds).2, f.Sized) ∧
      feedsSupply network (openFeeds network feeds).2 = feedsSupply network feeds := by
  induction feeds with
  | nil => exact ⟨h, rfl⟩
  | cons f feeds ih =>
    obtain ⟨hf, hfeeds⟩ := List.forall_mem_cons.1 h
    have hopened := hf.openOn network
    have hsupply := f.supply_openOn network
    rw [openFeeds]
    rcases hopen : f.openOn network with ⟨result, f'⟩
    rw [hopen] at hopened hsupply
    cases result with
    | error e =>
      exact ⟨List.forall_mem_cons.2 ⟨hopened, hfeeds⟩,
        congrArg (· + feedsSupply network feeds) hsupply⟩
    | ok _ =>
      obtain ⟨hsized, hrest⟩ := ih hfeeds
      exact ⟨List.forall_mem_cons.2 ⟨hopened, hsized⟩, congrArg₂ (· + ·) hsupply hrest⟩

variable {set : BookSet}

theorem supply_eq (set : BookSet) : set.supply = feedsSupply set.network set.increments := rfl

/-- The sessions of all increment feeds are as calls in order lead to. -/
def Metered (set : BookSet) : Prop := ∀ f ∈ set.increments, f.Sized

theorem metered_create {network : Network} {config : Config} {templates : TemplateSet}
    (h : create network config templates = .ok set) : set.Metered := by
  obtain ⟨layouts, rfl⟩ := create_eq h
  intro f hf s hs
  obtain ⟨config, -, rfl⟩ := List.mem_map.1 hf
  cases hs

theorem Metered.run (h : set.Metered) (m : Move) : (m.run set).Metered := by
  cases m with
  | opened => exact (feedsSupply_openFeeds set.network h).1
  | closed =>
    intro f hf s hs
    obtain ⟨f, -, rfl⟩ := List.mem_map.1 hf
    cases hs
  | polled => exact (feedsSupply_pollIncrements set.layouts set.network 0 set.watch h).1
  | _ => exact h

theorem Metered.foldl (h : set.Metered) (ms : List Move) : (ms.foldl Move.run set).Metered :=
  foldl_induction (fun _ m h => h.run m) h ms

theorem Metered.supply_poll (h : set.Metered) :
    set.poll.2.supply ≤ set.supply ∧ (set.accepted ≠ [] → set.poll.2.supply < set.supply) :=
  (feedsSupply_pollIncrements set.layouts set.network 0 set.watch h).2

theorem Metered.supply_beginJoin (h : set.Metered) (target : Nat) :
    (set.beginJoin target).2.Metered ∧ (set.beginJoin target).2.supply = set.supply :=
  feedsSupply_openFeeds set.network h

/-! ## Joins -/

theorem firstNumber_foldl_add {taken : List Located} {a : Attempt}
    (h : (taken.foldl Attempt.add a).firstNumber.isSome = true) :
    a.firstNumber.isSome = true ∨ taken ≠ [] := by
  cases taken with
  | nil => exact .inl h
  | cons located taken => exact .inr (List.cons_ne_nil _ _)

theorem finishJoin_step (set : BookSet) (target : Nat) (a : Attempt) (last : UInt64) :
    (set.finishJoin target a last).1 = .joined ∨ (set.finishJoin target a last).1 = .giveUp := by
  unfold finishJoin
  split
  · exact .inr rfl
  · dsimp only
    split
    · exact .inl rfl
    · exact .inr rfl

/-- A snapshot is of use only to an attempt that has collected something, and changes none. -/
theorem trySnapshot_step (set : BookSet) (target : Nat) (a : Attempt) (located : Located) :
    (set.trySnapshot target a located).1 = .wait a ∨
      (set.trySnapshot target a located).1 = .giveUp ∨
      (set.trySnapshot target a located).1 = .joined ∧ a.firstNumber.isSome = true := by
  unfold trySnapshot
  cases located.layout.lastProcessedOf located.message with
  | none => exact .inl rfl
  | some last =>
    dsimp only
    split
    · exact .inl rfl
    · next hreached =>
      rw [Bool.not_eq_true, Bool.not_eq_false', Attempt.isReachedBy, Option.any_eq_true] at hreached
      obtain ⟨first, hfirst, -⟩ := hreached
      split
      · exact .inr (.inl rfl)
      · exact .inl rfl
      · next books _ =>
        refine .inr ((finishJoin_step { set with books } target a last).symm.imp_right ?_)
        exact fun hjoined => ⟨hjoined, by rw [hfirst, Option.isSome_some]⟩

/-- The attempt that a step goes on with, or has ended with, has collected something. -/
def JoinStep.HasCollected : JoinStep → Prop
  | .wait a => a.firstNumber.isSome = true
  | .joined => True
  | .giveUp | .failed _ => False

/-- An attempt collects only what the arbiter takes. -/
theorem accepted_of_hasCollected {target : Nat} {a : Attempt}
    (h : (set.pollJoin target a).1.HasCollected) :
    a.firstNumber.isSome = true ∨ set.accepted ≠ [] := by
  have htaken := @set.poll_taken
  unfold pollJoin at h
  rcases hset : set.poll with ⟨result, polled⟩
  rw [hset] at h htaken
  cases result with
  | error e => exact h.elim
  | ok taken =>
    have hsome (hfirst : (taken.foldl Attempt.add a).firstNumber.isSome = true) :
        a.firstNumber.isSome = true ∨ set.accepted ≠ [] := by
      refine (firstNumber_foldl_add hfirst).imp_right fun hne hnone => hne ?_
      rw [htaken rfl, refreshes, ← accepted, hnone]
      rfl
    dsimp only at h
    split at h
    · exact h.elim
    · split at h
      · exact h.elim
      · exact hsome h
      · next located snapshots _ =>
        rcases trySnapshot_step { taken.foldl applySteady polled with snapshots } target
          (taken.foldl Attempt.add a) located with hwait | hgiveUp | ⟨hjoined, hfirst⟩
        · rw [hwait] at h
          exact hsome h
        · rw [hgiveUp] at h
          exact h.elim
        · exact hsome hfirst

theorem pollJoin_supply (set : BookSet) (target : Nat) (a : Attempt) :
    (set.pollJoin target a).2.supply = set.poll.2.supply := by
  obtain ⟨rest, hmoves, hinner⟩ := set.pollJoinMoves_eq target a
  have hstate := set.foldl_pollJoinMoves target a
  rw [hmoves, List.foldl_cons, Move.run] at hstate
  rw [← hstate, supply_eq, foldl_increments _ hinner, (foldl_fixed _ rest).1]
  rfl

theorem Metered.pollJoin (h : set.Metered) (target : Nat) (a : Attempt) :
    (set.pollJoin target a).2.Metered := by
  rw [← foldl_pollJoinMoves]
  exact h.foldl _

/-- A join adds nothing to the supply, and one that succeeds uses some of it up. -/
theorem Metered.supply_joinWithin (h : set.Metered) (target polls : Nat) (a : Attempt) :
    (joinWithin target polls a set).2.supply ≤ set.supply ∧
      ((joinWithin target polls a set).1 = .ok () → a.firstNumber.isSome = false →
        (joinWithin target polls a set).2.supply < set.supply) := by
  induction polls generalizing a set with
  | zero => exact ⟨le_rfl, by simp [joinWithin]⟩
  | succ polls ih =>
    obtain ⟨hpoll, hpoll'⟩ := h.supply_poll
    rw [← set.pollJoin_supply target a] at hpoll hpoll'
    have hcollected := @set.accepted_of_hasCollected target a
    have hmetered := h.pollJoin target a
    rw [joinWithin]
    rcases hstep : set.pollJoin target a with ⟨step, polled⟩
    rw [hstep] at hpoll hpoll' hcollected hmetered
    cases step with
    | wait a' =>
      obtain ⟨hle, hlt⟩ := ih hmetered a'
      refine ⟨hle.trans hpoll, fun hok hnone => ?_⟩
      -- Either the attempt is still to collect its first message, or it has done so in this poll.
      cases hsome : a'.firstNumber.isSome with
      | false => exact (hlt hok hsome).trans_le hpoll
      | true =>
        refine hle.trans_lt (hpoll' ((hcollected hsome).resolve_left ?_))
        rw [hnone]
        exact Bool.false_ne_true
    | failed e => exact ⟨hpoll, by simp⟩
    | joined =>
      refine ⟨hpoll, fun _ hnone => hpoll' ((hcollected trivial).resolve_left ?_)⟩
      rw [hnone]
      exact Bool.false_ne_true
    | giveUp =>
      have hretried : (polled.closeSnapshots.count (·.countJoinRetry)).resetArbiter.Metered :=
        hmetered
      obtain ⟨hbegun, hsame⟩ := hretried.supply_beginJoin target
      dsimp only
      rcases hbegin : (polled.closeSnapshots.count (·.countJoinRetry)).resetArbiter.beginJoin target
        with ⟨result, begun⟩
      rw [hbegin] at hbegun hsame
      have hbefore : begun.supply ≤ set.supply := hsame.trans_le hpoll
      cases result with
      | error e => exact ⟨hbefore, by simp⟩
      | ok _ =>
        -- The attempt starts over with nothing collected, so what follows uses some up by itself.
        obtain ⟨hle, hlt⟩ := ih hbegun {}
        exact ⟨hle.trans hbefore, fun hok _ => (hlt hok rfl).trans_le hbefore⟩

theorem Metered.supply_join (h : set.Metered) (target : Nat) :
    (set.join target).2.supply ≤ set.supply ∧
      ((set.join target).1 = .ok () → (set.join target).2.supply < set.supply) := by
  obtain ⟨hbegun, hsame⟩ := h.supply_beginJoin target
  unfold join
  rcases hbegin : set.beginJoin target with ⟨result, begun⟩
  rw [hbegin] at hbegun hsame
  cases result with
  | error e => exact ⟨hsame.le, by simp⟩
  | ok _ =>
    obtain ⟨hle, hlt⟩ := hbegun.supply_joinWithin target begun.joinLimit {}
    exact ⟨hle.trans hsame.le, fun hok => (hlt hok rfl).trans_le hsame.le⟩

/-! ## The polls of a join -/

/-- The polls that a join makes, by its journal. -/
def joinPolls (set : BookSet) (target : Nat) : Nat :=
  (pollsIn (journal (set.joinMoves target) set)).length

/--
A join that may make `limit` polls, `left` of them from here on, is over after `polls` more. It
gives up only when none are left.
-/
structure EndsWithin (limit left polls : Nat) (result : Except SyncError Unit) : Prop where
  bounded : polls ≤ left
  result : result = .ok () ∨ (∃ e, result = .error (.feed e)) ∨
    ∃ symbol, result = .error (.joinExhausted symbol limit) ∧ polls = left

namespace EndsWithin

variable {limit left polls : Nat} {result : Except SyncError Unit}

theorem succ (h : EndsWithin limit left polls result) :
    EndsWithin limit (left + 1) (polls + 1) result where
  bounded := Nat.succ_le_succ h.bounded
  result := h.result.imp_right fun h => h.imp_right fun ⟨symbol, heq, hleft⟩ =>
    ⟨symbol, heq, congrArg (· + 1) hleft⟩

theorem failed (h : polls ≤ left) (e : FeedError) :
    EndsWithin limit left polls (.error (.feed e)) := ⟨h, .inr (.inl ⟨e, rfl⟩)⟩

end EndsWithin

theorem countP_pollJoinMoves (set : BookSet) (target : Nat) (a : Attempt) :
    (set.pollJoinMoves target a).countP Move.isPoll = 1 := by
  obtain ⟨rest, hmoves, hinner⟩ := set.pollJoinMoves_eq target a
  rw [hmoves, List.countP_cons_of_pos rfl, List.countP_eq_zero.2]
  intro m hm
  rw [Move.isPoll_of_isInner (hinner m hm)]
  exact Bool.false_ne_true

theorem feed_of_mapError {α : Type} {r : Except FeedError α} {e : SyncError}
    (h : r.mapError SyncError.feed = .error e) : ∃ e', e = .feed e' := by
  cases r with
  | error e' => exact ⟨e', (Except.error.inj h).symm⟩
  | ok a => cases h

theorem feed_of_pollJoin_failed {target : Nat} {a : Attempt} {e : SyncError}
    (h : (set.pollJoin target a).1 = .failed e) : ∃ e', e = .feed e' := by
  have hpoll : set.poll.1 = .error e → ∃ e', e = .feed e' := feed_of_mapError
  unfold pollJoin at h
  rcases hset : set.poll with ⟨result, polled⟩
  rw [hset] at h hpoll
  cases result with
  | error e' =>
    obtain rfl := JoinStep.failed.inj h
    exact hpoll rfl
  | ok taken =>
    dsimp only at h
    split at h
    · cases h
    · split at h
      · exact ⟨_, (JoinStep.failed.inj h).symm⟩
      · cases h
      · next located snapshots _ =>
        rcases trySnapshot_step { taken.foldl applySteady polled with snapshots } target
          (taken.foldl Attempt.add a) located with hwait | hgiveUp | ⟨hjoined, -⟩
        · cases hwait.symm.trans h
        · cases hgiveUp.symm.trans h
        · cases hjoined.symm.trans h

theorem feed_of_beginJoin_error {target : Nat} {e : SyncError}
    (h : (set.beginJoin target).1 = .error e) : ∃ e', e = .feed e' := feed_of_mapError h

theorem joinLimit_of_policy {set set' : BookSet} (h : set'.policy = set.policy) :
    set'.joinLimit = set.joinLimit := by
  rw [joinLimit, h, joinLimit]

theorem endsWithin_joinWithin (set : BookSet) (target polls : Nat) (a : Attempt) :
    EndsWithin set.joinLimit polls ((joinWithinMoves target polls a set).countP Move.isPoll)
      (joinWithin target polls a set).1 := by
  induction polls generalizing a set with
  | zero => exact ⟨Nat.le_refl 0, .inr (.inr ⟨_, rfl, rfl⟩)⟩
  | succ polls ih =>
    have hpolicy := (set.foldl_fixed (set.pollJoinMoves target a)).2
    have hfailed := @set.feed_of_pollJoin_failed target a
    rw [foldl_pollJoinMoves] at hpolicy
    rw [joinWithinMoves, joinWithin, List.countP_append, countP_pollJoinMoves,
      Nat.add_comm 1]
    rcases hstep : set.pollJoin target a with ⟨step, polled⟩
    rw [hstep] at hpolicy hfailed
    have hlimit := joinLimit_of_policy hpolicy
    cases step with
    | wait a' =>
      rw [← hlimit]
      exact (ih polled a').succ
    | failed e =>
      obtain ⟨e', rfl⟩ := hfailed rfl
      exact .failed (Nat.succ_le_succ (Nat.zero_le polls)) e'
    | joined => exact ⟨Nat.succ_le_succ (Nat.zero_le polls), .inl rfl⟩
    | giveUp =>
      have herror := @feed_of_beginJoin_error
        (polled.closeSnapshots.count (·.countJoinRetry)).resetArbiter target
      dsimp only
      rcases hbegin : (polled.closeSnapshots.count (·.countJoinRetry)).resetArbiter.beginJoin target
        with ⟨result, begun⟩
      rw [hbegin] at herror
      cases result with
      | error e =>
        obtain ⟨e', rfl⟩ := herror rfl
        exact .failed (Nat.succ_le_succ (Nat.zero_le polls)) e'
      | ok _ =>
        have hbegun : begun.joinLimit = set.joinLimit := by
          obtain rfl := congrArg Prod.snd hbegin
          exact hlimit
        rw [← hbegun]
        exact (ih begun {}).succ

/-- A join makes no more polls than it may, and gives up only after so many. -/
theorem endsWithin_join (set : BookSet) (target : Nat) :
    EndsWithin set.joinLimit set.joinLimit (set.joinPolls target) (set.join target).1 := by
  have herror := @set.feed_of_beginJoin_error target
  rw [joinPolls, length_pollsIn_journal]
  unfold joinMoves join
  rcases hbegin : set.beginJoin target with ⟨result, begun⟩
  rw [hbegin] at herror
  cases result with
  | error e =>
    obtain ⟨e', rfl⟩ := herror rfl
    exact .failed (Nat.zero_le _) e'
  | ok _ =>
    have hbegun : begun.joinLimit = set.joinLimit := by
      obtain rfl := congrArg Prod.snd hbegin
      rfl
    rw [← hbegun]
    exact begun.endsWithin_joinWithin target begun.joinLimit {}

/-! ## Rejoins -/

/--
Join after join until no book is missing, or one of them fails. The list has the polls that each of
the joins makes.
-/
inductive Rejoins : BookSet → List Nat → Except SyncError Unit → BookSet → Prop
  | done {set : BookSet} (h : set.firstMissing? = none) :
      Rejoins set [] (.ok ()) { set with desynced := [] }
  | failed {set set' : BookSet} {target : Nat} {e : SyncError}
      (h : set.firstMissing? = some target) (hjoin : set.join target = (.error e, set')) :
      Rejoins set [set.joinPolls target] (.error e) set'
  | next {set set' set'' : BookSet} {target : Nat} {polls : List Nat}
      {result : Except SyncError Unit} (h : set.firstMissing? = some target)
      (hjoin : set.join target = (.ok (), set')) (hrest : Rejoins set' polls result set'') :
      Rejoins set (set.joinPolls target :: polls) result set''

theorem Rejoins.polls_le {set' : BookSet} {polls : List Nat} {result : Except SyncError Unit}
    (h : Rejoins set polls result set') : ∀ n ∈ polls, n ≤ set.joinLimit := by
  induction h with
  | done => simp
  | @failed set set' target e _ _ =>
    simpa using (set.endsWithin_join target).bounded
  | @next set set' set'' target polls result _ hjoin _ ih =>
    have hpolicy := (set.foldl_fixed (set.joinMoves target)).2
    rw [foldl_joinMoves, hjoin] at hpolicy
    rw [joinLimit_of_policy hpolicy] at ih
    exact List.forall_mem_cons.2 ⟨(set.endsWithin_join target).bounded, ih⟩

/-- A rejoin that may make more joins than there are bytes to come does not run out of them. -/
theorem Metered.rejoins_rejoinWithin (h : set.Metered) {joins : Nat} (hjoins : set.supply < joins) :
    ∃ polls, Rejoins set polls (rejoinWithin joins set).1 (rejoinWithin joins set).2 ∧
      polls.length ≤ set.supply + 1 := by
  induction joins generalizing set with
  | zero => cases hjoins
  | succ joins ih =>
    unfold rejoinWithin
    cases hmissing : set.firstMissing? with
    | none => exact ⟨[], .done hmissing, Nat.zero_le _⟩
    | some target =>
      obtain ⟨-, hlt⟩ := h.supply_join target
      have hmetered := h.foldl (set.joinMoves target)
      rw [foldl_joinMoves] at hmetered
      dsimp only
      rcases hjoin : set.join target with ⟨result, joined⟩
      rw [hjoin] at hlt hmetered
      cases result with
      | error e => exact ⟨_, .failed hmissing hjoin, by simp⟩
      | ok _ =>
        -- The join has used some of the supply up, so the joins that are left are still enough.
        have hused := hlt rfl
        obtain ⟨polls, hrejoins, hlength⟩ := ih hmetered (by omega)
        exact ⟨_, .next hmissing hjoin hrejoins, by simp only [List.length_cons]; omega⟩

theorem Metered.rejoins_rejoin (h : set.Metered) :
    ∃ polls, Rejoins set polls set.rejoin.1 set.rejoin.2 ∧ polls.length ≤ set.supply + 1 :=
  h.rejoins_rejoinWithin (Nat.lt_succ_self _)

/-! ## Updates -/

/-- A whole update. The list has the polls that each of the joins makes which it takes. -/
inductive Updates (set : BookSet) : List Nat → Except SyncError Tick → BookSet → Prop
  /-- An increment feed fails. -/
  | failed {e : SyncError} {polled : BookSet} (hpoll : set.wiped.poll = (.error e, polled)) :
      Updates set [] (.error e) polled
  /-- No book is joined. -/
  | told {taken : List Located} {polled : BookSet} {tick : Tick}
      (hpoll : set.wiped.poll = (.ok taken, polled)) (htick : tick ≠ .recovered) :
      Updates set [] (.ok tick) (taken.foldl applySteady polled)
  /-- The feeds stall, so every book starts over. -/
  | recovered {taken : List Located} {polled set' : BookSet} {polls : List Nat}
      {result : Except SyncError Unit} (hpoll : set.wiped.poll = (.ok taken, polled))
      (hstalled : (taken.foldl applySteady polled).watch.arbiter.isStalled = true)
      (h : Rejoins (taken.foldl applySteady polled).dropAll polls result set') :
      Updates set polls (result.map fun _ => .recovered) set'
  /-- Some books have missed rows, and only those join again. -/
  | rejoined {taken : List Located} {polled set' : BookSet} {polls : List Nat}
      {result : Except SyncError Unit} (hpoll : set.wiped.poll = (.ok taken, polled))
      (hdesynced : (taken.foldl applySteady polled).desyncedBooks ≠ [])
      (h : Rejoins (taken.foldl applySteady polled) polls result set') :
      Updates set polls (result.map fun _ => .recovered) set'

theorem foldl_applySteady_increments (taken : List Located) (set : BookSet) :
    (taken.foldl applySteady set).increments = set.increments := by
  rw [← foldl_applied, foldl_increments]
  simp [Move.isInner]

/-- An update is over after no more joins than there are bytes to come. -/
theorem Metered.updates (h : set.Metered) :
    ∃ polls, Updates set polls set.update.1 set.update.2 ∧ polls.length ≤ set.supply + 1 ∧
      ∀ n ∈ polls, n ≤ set.joinLimit := by
  have hwiped : set.wiped.Metered := h
  have hpolled := hwiped.run .polled
  have hsupply : set.wiped.poll.2.supply ≤ set.supply := hwiped.supply_poll.1
  have hlimit : set.wiped.poll.2.joinLimit = set.joinLimit := rfl
  rw [update_eq]
  rcases hpoll : set.wiped.poll with ⟨result, polled⟩
  rw [Move.run, hpoll] at hpolled
  rw [hpoll] at hsupply hlimit
  cases result with
  | error e => exact ⟨[], .failed hpoll, Nat.zero_le _, by simp⟩
  | ok taken =>
    have hmetered := hpolled.foldl (taken.map .applied)
    obtain ⟨hnetwork, hpolicy⟩ := polled.foldl_fixed (taken.map .applied)
    rw [foldl_applied] at hmetered hnetwork hpolicy
    have hsame : (taken.foldl applySteady polled).supply = polled.supply := by
      rw [supply_eq, hnetwork, foldl_applySteady_increments, supply_eq]
    rw [← joinLimit_of_policy hpolicy] at hlimit
    have told (tick : Tick) (htick : tick ≠ .recovered) :
        ∃ polls, Updates set polls (.ok tick) (taken.foldl applySteady polled) ∧
          polls.length ≤ set.supply + 1 ∧ ∀ n ∈ polls, n ≤ set.joinLimit :=
      ⟨[], .told hpoll htick, Nat.zero_le _, by simp⟩
    dsimp only
    unfold settle
    split
    · next hstalled =>
      split
      · have hdropped : (taken.foldl applySteady polled).dropAll.Metered := hmetered
        obtain ⟨polls, hrejoins, hlength⟩ := hdropped.rejoins_rejoin
        refine ⟨polls, .recovered hpoll hstalled hrejoins, ?_, fun n hn => ?_⟩
        · exact hlength.trans (Nat.succ_le_succ (hsame.trans_le hsupply))
        · exact hlimit ▸ hrejoins.polls_le n hn
      · exact told _ (by simp)
    · split
      · next hdesynced =>
        split
        · obtain ⟨polls, hrejoins, hlength⟩ := hmetered.rejoins_rejoin
          refine ⟨polls, .rejoined hpoll hdesynced hrejoins, ?_, fun n hn => ?_⟩
          · exact hlength.trans (Nat.succ_le_succ (hsame.trans_le hsupply))
          · exact hlimit ▸ hrejoins.polls_le n hn
        · exact told _ (by simp)
      · exact told _ (by split <;> simp)

/--
Whatever has been done to a new book set: a join makes no more polls than the configuration has
set, and it succeeds, gives up after just so many, or fails over a feed. A recovery and an update
are over after finitely many joins, at most one more than there are bytes to come from the increment
feeds, even if a join costs other books their place.
-/
theorem joins_bounded {network : Network} {config : Config} {templates : TemplateSet} {m : UInt64}
    (h : create network config templates = .ok set) (hm : config.sync.maxJoinPolls = some m)
    (calls : List Call) :
    let s := calls.foldl Call.run set
    (∀ target, EndsWithin m.toNat m.toNat (s.joinPolls target) (s.join target).1) ∧
    (∃ polls, Rejoins s.dropAll polls s.recover.1 s.recover.2 ∧ polls.length ≤ s.supply + 1 ∧
      ∀ n ∈ polls, n ≤ m.toNat) ∧
    ∃ polls, Updates s polls s.update.1 s.update.2 ∧ polls.length ≤ s.supply + 1 ∧
      ∀ n ∈ polls, n ≤ m.toNat := by
  intro s
  have hmetered : s.Metered := by
    rw [show s = (moves calls set).foldl Move.run set from (set.foldl_moves calls).symm]
    exact (metered_create h).foldl _
  have hlimit : s.joinLimit = m.toNat := by
    have hpolicy := (set.foldl_fixed (moves calls set)).2
    rw [foldl_moves] at hpolicy
    rw [joinLimit_of_policy hpolicy]
    obtain ⟨layouts, rfl⟩ := create_eq h
    simp [joinLimit, hm]
  refine ⟨fun target => hlimit ▸ s.endsWithin_join target, ?_, hlimit ▸ hmetered.updates⟩
  have hdropped : s.dropAll.Metered := hmetered
  obtain ⟨polls, hrejoins, hlength⟩ := hdropped.rejoins_rejoin
  exact ⟨polls, hrejoins, hlength, fun n hn => hlimit ▸ hrejoins.polls_le n hn⟩

/-- Increments 1 to 7, of which 5 skips rows of book A, and snapshots of A and of B up to 9. -/
def rivalNetwork : Network
  | .file "increments" => some [
    .bytes [192, 129, 129, 129, 133, 129, 176, 128, 128, 0, 228, 138],
    .bytes [128, 130, 129, 134, 129, 176, 128, 128, 0, 228, 138],
    .bytes [128, 131, 129, 134, 129, 176, 128, 128, 0, 228, 138],
    .bytes [128, 132, 129, 133, 129, 176, 128, 128, 0, 228, 138],
    .bytes [128, 133, 129, 133, 137, 176, 128, 128, 0, 228, 138],
    .bytes [128, 134, 129, 134, 129, 176, 128, 128, 0, 228, 138],
    .bytes [128, 135, 129, 134, 129, 176, 128, 128, 0, 228, 138]]
  | .file "snapshots" => some [
    .bytes [192, 130, 129, 137, 133, 129, 129, 176, 128, 0, 228, 138],
    .bytes [128, 130, 137, 134, 129, 129, 176, 128, 0, 228, 138]]
  | _ => none

def rivalSet : BookSet := (create rivalNetwork pairConfig market).toOption.get rfl

/-- A recovery in which A has to join twice, since it loses its place while B joins. -/
theorem joins_bounded_rivals :
    let s := pairCalls.foldl Call.run rivalSet
    create rivalNetwork pairConfig market = .ok rivalSet ∧
      pairConfig.sync.maxJoinPolls = some 3 ∧
      (turnings [.recover] s).map Outline.of = [.restarted .recovered, .taken 4, .joined 0, .taken 5,
        .taken 6, .joined 1, .taken 7, .joined 0] ∧
      (∃ polls, Rejoins s.dropAll polls s.recover.1 s.recover.2 ∧ polls.length ≤ s.supply + 1 ∧
        ∀ n ∈ polls, n ≤ 3) ∧
      EndsWithin 3 3 (s.joinPolls 0) (s.join 0).1 := by
  intro s
  have hset : create rivalNetwork pairConfig market = .ok rivalSet := rfl
  have hlimit : pairConfig.sync.maxJoinPolls = some 3 := rfl
  obtain ⟨hjoin, hrecover, -⟩ := joins_bounded hset hlimit pairCalls
  exact ⟨hset, hlimit, by decide +kernel, hrecover, hjoin 0⟩

end BookSet

end MarketFeed
