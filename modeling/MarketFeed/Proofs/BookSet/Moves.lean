import MarketFeed.Proofs.BookSet.Activity

/-!
# The moves of a run

A call is made of moves, each of which does one thing to the book set. Every function of a book set
is followed by one that lists its moves, and to make them one after the other is all that it does
(`foldl_moves`). What every move keeps is thereby kept by every run. Where a run makes a move is told
by its journal, and whatever else is to be listed of a run is read off from that (`listed`).
-/

namespace MarketFeed

/-- Why the arbiter is made to forget the stream. -/
inductive Restart where
  /-- The feeds are opened. -/
  | opened
  /-- A join of the book at a position tries again. -/
  | retried (target : Nat)
  | recovered
deriving DecidableEq, Repr

/-- Whether the restart lets the book at a position go on. -/
def Restart.Spares : Restart → Nat → Prop
  | opened, _ => True
  | retried target, i => i ≠ target
  | recovered, _ => False

instance : (cause : Restart) → (i : Nat) → Decidable (cause.Spares i)
  | .opened, _ => .isTrue trivial
  | .retried target, i => inferInstanceAs (Decidable (i ≠ target))
  | .recovered, _ => .isFalse id

/-- The books behind a restart: those that it does not spare are no longer active. -/
def Books.spare (bs : Books) : Restart → Books
  | .opened => bs
  | .retried target => bs.deactivate target
  | .recovered => { bs with list := bs.list.map fun b => { b with isActive := false } }

namespace BookSet

/-! ## Calls -/

/-- The feeds of one kind that a book set begins with. -/
def newFeeds (config : Config) (templates : TemplateSet) (kind : FeedKind) : List Feed :=
  ((config.feedsOf kind).take Config.maxFeeds).map fun config => { config, templates }

/-- A new book set has nothing open, nothing taken and no book in step. -/
theorem create_eq {set : BookSet} {network : Network} {config : Config} {templates : TemplateSet}
    (h : create network config templates = .ok set) :
    ∃ layouts, set = {
      network
      policy := config.sync
      layouts
      increments := newFeeds config templates .increment
      snapshots := newFeeds config templates .snapshot
      books := .ofConfigs (config.books.take Config.maxBooks)
      watch := {
        arbiter := .create (newFeeds config templates .increment).length
        stats := .empty } } := by
  unfold create at h
  simp only [bind, Except.bind] at h
  split at h
  · cases h
  · split at h
    · cases h
    · exact ⟨_, (Except.ok.inj h).symm⟩

/-- What can be asked of a book set. -/
inductive Call where
  | openAll
  | closeAll
  | join (target : Nat)
  | subscribe (securityId : UInt64)
  | unsubscribe (securityId : UInt64)
  | recover
  | update

/-- The book set after a call, whether or not the call has failed. -/
def Call.run (set : BookSet) : Call → BookSet
  | .openAll => set.openAll.2
  | .closeAll => set.closeAll
  | .join target => (set.join target).2
  | .subscribe securityId => (set.subscribe securityId).2
  | .unsubscribe securityId => (set.unsubscribe securityId).2
  | .recover => set.recover.2
  | .update => set.update.2

/-! ## Moves -/

/-- One thing that is done to a book set. -/
inductive Move where
  /-- The increment feeds are opened. -/
  | opened
  /-- The increment feeds are closed. -/
  | closed
  /-- The increment feeds are polled. -/
  | polled
  /-- The snapshot feeds are polled. -/
  | looked
  /-- The snapshot feeds are closed. -/
  | left
  /-- An increment is applied to all active books. -/
  | applied (located : Located)
  /-- A snapshot is applied to the book at a position. -/
  | shown (target : Nat) (located : Located)
  /-- Increments past number `last` are replayed to the book at a position. -/
  | replayed (target : Nat) (last : UInt64) (buffered : List Located)
  /-- The arbiter forgets the stream, and the books that this does not spare are not kept up. -/
  | restarted (cause : Restart)
  /-- The book at a position is not kept up for now. -/
  | dropped (target : Nat)
  /-- A join of the book at a position has succeeded. -/
  | joined (target : Nat)
  | subscribed (target : Nat)
  | unsubscribed (target : Nat)
  | counted (f : FeedStats → FeedStats)
  /-- Other books are known to have missed rows. -/
  | remarked (f : List Nat → List Nat)
  /-- No book counts as changed. -/
  | wiped

/-- The book set of an update before its poll. -/
def wiped (set : BookSet) : BookSet := { set with books := { set.books with touched := [] } }

theorem update_eq (set : BookSet) :
    set.update = match set.wiped.poll with
      | (.error e, set) => (.error e, set)
      | (.ok taken, set) => (taken.foldl applySteady set).settle taken.length := rfl

def Move.run (set : BookSet) : Move → BookSet
  | opened => set.openIncrements.2
  | closed => { set with increments := set.increments.map Feed.close }
  | polled => set.poll.2
  | looked =>
    { set with snapshots := (pollSnapshots set.layouts set.network set.snapshots).2 }
  | left => set.closeSnapshots
  | applied located => set.applySteady located
  | shown target located =>
    { set with
      books := (set.books.applySnapshot located.message located.layout target).2 }
  | replayed target last buffered =>
    { set with books := (replay target last buffered set.books).2 }
  | restarted cause => { set.resetArbiter with books := set.books.spare cause }
  | dropped target => { set with books := set.books.deactivate target }
  | joined target =>
    let set := set.count (·.countJoin)
    { set with desynced := set.desynced.filter (· != target) }
  | subscribed target =>
    { set with books := set.books.modify target fun b => { b with isSubscribed := true } }
  | unsubscribed target =>
    { set with
      books := set.books.modify target fun b =>
        { b with isSubscribed := false, isActive := false } }
  | counted f => set.count f
  | remarked f => { set with desynced := f set.desynced }
  | wiped => set.wiped

/-! ## Moves of each function -/

variable (set : BookSet)

def finishJoinMoves (target : Nat) (a : Attempt) (last : UInt64) : List Move :=
  .replayed target last a.buffered.reverse ::
    match replay target last a.buffered.reverse set.books with
    | (none, _) => []
    | (some n, _) => [.counted (·.countReplayed (.ofNat n))]

def trySnapshotMoves (target : Nat) (a : Attempt) (located : Located) : List Move :=
  match located.layout.lastProcessedOf located.message with
  | none => []
  | some last =>
    if !a.isReachedBy last then []
    else
      .shown target located ::
        match set.books.applySnapshot located.message located.layout target with
        | (.ok true, books) => { set with books }.finishJoinMoves target a last
        | (_, _) => []

def pollJoinMoves (target : Nat) (a : Attempt) : List Move :=
  .polled ::
    match set.poll with
    | (.error _, _) => []
    | (.ok taken, set) =>
      if set.watch.arbiter.isStalled then []
      else
        let set := taken.foldl applySteady set
        taken.map .applied ++ .looked ::
          match pollSnapshots set.layouts set.network set.snapshots with
          | (.ok (some located), snapshots) =>
            { set with snapshots }.trySnapshotMoves target (taken.foldl Attempt.add a) located
          | (_, _) => []

def joinWithinMoves (target : Nat) : Nat → Attempt → BookSet → List Move
  | 0, _, _ => [.left]
  | polls + 1, a, set =>
    set.pollJoinMoves target a ++
      match set.pollJoin target a with
      | (.wait a, set) => joinWithinMoves target polls a set
      | (.failed _, _) => [.left]
      | (.joined, _) => [.left, .joined target]
      | (.giveUp, set) =>
        [.left, .counted (·.countJoinRetry), .restarted (.retried target), .opened] ++
          match (set.closeSnapshots.count (·.countJoinRetry)).resetArbiter.beginJoin target with
          | (.error _, _) => [.left]
          | (.ok (), set) => joinWithinMoves target polls {} set

def joinMoves (target : Nat) : List Move :=
  [.dropped target, .opened] ++
    match set.beginJoin target with
    | (.error _, _) => [.left]
    | (.ok (), set) => joinWithinMoves target set.joinLimit {} set

def rejoinWithinMoves : Nat → BookSet → List Move
  | joins, set =>
    match set.firstMissing? with
    | none => [.remarked fun _ => []]
    | some target =>
      match joins with
      | 0 => []
      | joins + 1 =>
        set.joinMoves target ++
          match set.join target with
          | (.error _, _) => []
          | (.ok (), set) => rejoinWithinMoves joins set

def rejoinMoves : List Move := rejoinWithinMoves (set.supply + 1) set

def recoverMoves : List Move :=
  [.counted (·.countRecovery), .restarted .recovered] ++ set.dropAll.rejoinMoves

def settleMoves : List Move :=
  if set.watch.arbiter.isStalled then if set.policy.autoRecover then set.recoverMoves else []
  else if set.desyncedBooks ≠ [] then if set.policy.autoRecover then set.rejoinMoves else []
  else []

def updateMoves : List Move :=
  .wiped :: .polled ::
    match set.wiped.poll with
    | (.error _, _) => []
    | (.ok taken, set) => taken.map .applied ++ (taken.foldl applySteady set).settleMoves

def Call.moves (set : BookSet) : Call → List Move
  | .openAll =>
    .opened ::
      match set.openIncrements with
      | (.ok (), _) => [.restarted .opened]
      | (.error _, _) => []
  | .closeAll => [.left, .closed]
  | .join target => set.joinMoves target
  | .subscribe securityId =>
    match set.books.byId? securityId with
    | none => []
    | some target =>
      set.joinMoves target ++
        match set.join target with
        | (.error _, _) => []
        | (.ok (), _) => [.subscribed target]
  | .unsubscribe securityId =>
    match set.books.byId? securityId with
    | none => []
    | some target => [.unsubscribed target, .remarked (·.filter (· != target))]
  | .recover => set.recoverMoves
  | .update => set.updateMoves

/-- The moves of one call after another. -/
def moves : List Call → BookSet → List Move
  | [], _ => []
  | c :: calls, set => c.moves set ++ moves calls (c.run set)

def Move.isPoll : Move → Bool
  | .polled => true
  | _ => false

def Move.isWipe : Move → Bool
  | .wiped => true
  | _ => false

def Move.isReplay : Move → Bool
  | .replayed .. => true
  | _ => false

/-! ## Attempts -/

/-- A move by which a snapshot, and the increments past it, are tried on the book of a join. -/
def Move.isTrial : Move → Bool
  | .shown .. | .replayed .. | .counted _ => true
  | _ => false

/-- A move inside a try of a join, behind its poll. -/
def Move.isInner : Move → Bool
  | .applied _ | .looked | .shown .. | .replayed .. | .counted _ => true
  | _ => false

theorem isTrial_of_mem_finishJoinMoves {target : Nat} {a : Attempt} {last : UInt64} :
    ∀ m ∈ set.finishJoinMoves target a last, m.isTrial = true := by
  unfold finishJoinMoves
  rcases replay target last a.buffered.reverse set.books with ⟨n, books⟩
  cases n <;> simp [Move.isTrial]

theorem isTrial_of_mem_trySnapshotMoves {target : Nat} {a : Attempt} {located : Located} :
    ∀ m ∈ set.trySnapshotMoves target a located, m.isTrial = true := by
  unfold trySnapshotMoves
  split
  · simp
  · split
    · simp
    · rw [List.forall_mem_cons]
      refine ⟨rfl, ?_⟩
      split
      · exact isTrial_of_mem_finishJoinMoves _
      · simp

theorem Move.isInner_of_isTrial {m : Move} (h : m.isTrial = true) : m.isInner = true := by
  cases m <;> first | rfl | cases h

theorem Move.isPoll_of_isInner {m : Move} (h : m.isInner = true) : m.isPoll = false := by
  cases m <;> first | rfl | cases h

/-- A try of a join polls the increment feeds once, and leaves them alone from then on. -/
theorem pollJoinMoves_eq (target : Nat) (a : Attempt) :
    ∃ rest, set.pollJoinMoves target a = .polled :: rest ∧ ∀ m ∈ rest, m.isInner = true := by
  refine ⟨_, rfl, ?_⟩
  rcases set.poll with ⟨result, polled⟩
  cases result with
  | error e => simp
  | ok taken =>
    dsimp only
    split
    · simp
    · rw [List.forall_mem_append, List.forall_mem_cons]
      refine ⟨by simp [Move.isInner], rfl, ?_⟩
      split
      · exact fun m hm => Move.isInner_of_isTrial (isTrial_of_mem_trySnapshotMoves _ m hm)
      · simp

/-! ## The moves are all that is done -/

theorem foldl_finishJoinMoves (target : Nat) (a : Attempt) (last : UInt64) :
    (set.finishJoinMoves target a last).foldl Move.run set =
      (set.finishJoin target a last).2 := by
  unfold finishJoinMoves finishJoin
  rw [List.foldl_cons, Move.run]
  rcases replay target last a.buffered.reverse set.books with ⟨n, books⟩
  cases n <;> rfl

theorem foldl_trySnapshotMoves (target : Nat) (a : Attempt) (located : Located) :
    (set.trySnapshotMoves target a located).foldl Move.run set =
      (set.trySnapshot target a located).2 := by
  unfold trySnapshotMoves trySnapshot
  cases located.layout.lastProcessedOf located.message with
  | none => rfl
  | some last =>
    dsimp only
    split
    · rfl
    · rw [List.foldl_cons, Move.run]
      rcases set.books.applySnapshot located.message located.layout target with ⟨result, books⟩
      rcases result with e | found
      · rfl
      · cases found with
        | false => rfl
        | true => exact foldl_finishJoinMoves { set with books } target a last

theorem foldl_applied (taken : List Located) :
    (taken.map Move.applied).foldl Move.run set = taken.foldl applySteady set :=
  List.foldl_map

theorem foldl_pollJoinMoves (target : Nat) (a : Attempt) :
    (set.pollJoinMoves target a).foldl Move.run set = (set.pollJoin target a).2 := by
  unfold pollJoinMoves pollJoin
  rw [List.foldl_cons, Move.run]
  rcases set.poll with ⟨result, polled⟩
  cases result with
  | error e => rfl
  | ok taken =>
    dsimp only
    split
    · rfl
    · rw [List.foldl_append, foldl_applied, List.foldl_cons, Move.run]
      generalize taken.foldl applySteady polled = applied
      rcases pollSnapshots applied.layouts applied.network applied.snapshots
        with ⟨result, snapshots⟩
      rcases result with e | found
      · rfl
      · cases found with
        | none => rfl
        | some located => exact foldl_trySnapshotMoves { applied with snapshots } target _ located

theorem foldl_beginMoves (target : Nat) :
    [Move.dropped target, .opened].foldl Move.run set = (set.beginJoin target).2 := rfl

theorem foldl_retryMoves (target : Nat) :
    [Move.left, .counted (·.countJoinRetry), .restarted (.retried target), .opened].foldl Move.run
      set = ((set.closeSnapshots.count (·.countJoinRetry)).resetArbiter.beginJoin target).2 := rfl

theorem foldl_joinWithinMoves (target polls : Nat) (a : Attempt) :
    (joinWithinMoves target polls a set).foldl Move.run set =
      (joinWithin target polls a set).2 := by
  induction polls generalizing a set with
  | zero => rfl
  | succ polls ih =>
    rw [joinWithinMoves, joinWithin, List.foldl_append, foldl_pollJoinMoves]
    rcases set.pollJoin target a with ⟨step, polled⟩
    cases step with
    | wait a => exact ih polled a
    | failed e => rfl
    | joined => rfl
    | giveUp =>
      rw [List.foldl_append, foldl_retryMoves]
      dsimp only
      rcases (polled.closeSnapshots.count (·.countJoinRetry)).resetArbiter.beginJoin target
        with ⟨result, begun⟩
      cases result with
      | error e => rfl
      | ok _ => exact ih begun {}

theorem foldl_joinMoves (target : Nat) :
    (set.joinMoves target).foldl Move.run set = (set.join target).2 := by
  unfold joinMoves join
  rw [List.foldl_append, foldl_beginMoves]
  rcases set.beginJoin target with ⟨result, begun⟩
  cases result with
  | error e => rfl
  | ok _ => exact begun.foldl_joinWithinMoves target _ {}

theorem foldl_rejoinWithinMoves (joins : Nat) :
    (rejoinWithinMoves joins set).foldl Move.run set = (rejoinWithin joins set).2 := by
  induction joins generalizing set with
  | zero =>
    unfold rejoinWithinMoves rejoinWithin
    cases set.firstMissing? <;> rfl
  | succ joins ih =>
    unfold rejoinWithinMoves rejoinWithin
    cases set.firstMissing? with
    | none => rfl
    | some target =>
      dsimp only
      rw [List.foldl_append, foldl_joinMoves]
      rcases set.join target with ⟨result, joined⟩
      cases result with
      | error e => rfl
      | ok _ => exact ih joined

theorem foldl_rejoinMoves : set.rejoinMoves.foldl Move.run set = set.rejoin.2 :=
  set.foldl_rejoinWithinMoves (set.supply + 1)

theorem foldl_recoverMoves : set.recoverMoves.foldl Move.run set = set.recover.2 := by
  rw [recoverMoves, List.foldl_append, recover_eq]
  exact set.dropAll.foldl_rejoinMoves

theorem foldl_settleMoves (applied : Nat) :
    set.settleMoves.foldl Move.run set = (set.settle applied).2 := by
  unfold settleMoves settle
  split
  · split
    · exact set.foldl_recoverMoves
    · rfl
  · split
    · split
      · exact set.foldl_rejoinMoves
      · rfl
    · rfl

theorem foldl_updateMoves : set.updateMoves.foldl Move.run set = set.update.2 := by
  rw [updateMoves, update_eq, List.foldl_cons, List.foldl_cons, Move.run, Move.run]
  rcases set.wiped.poll with ⟨result, polled⟩
  cases result with
  | error e => rfl
  | ok taken =>
    dsimp only
    rw [List.foldl_append, foldl_applied]
    exact foldl_settleMoves _ taken.length

theorem foldl_callMoves (c : Call) : (c.moves set).foldl Move.run set = c.run set := by
  cases c with
  | openAll =>
    simp only [Call.moves, Call.run, openAll, List.foldl_cons, Move.run]
    rcases set.openIncrements with ⟨result, opened⟩
    cases result <;> rfl
  | closeAll => rfl
  | join target => exact set.foldl_joinMoves target
  | subscribe securityId =>
    simp only [Call.moves, Call.run, subscribe]
    cases set.books.byId? securityId with
    | none => rfl
    | some target =>
      dsimp only
      rw [List.foldl_append, foldl_joinMoves]
      rcases set.join target with ⟨result, joined⟩
      cases result <;> rfl
  | unsubscribe securityId =>
    simp only [Call.moves, Call.run, unsubscribe]
    cases set.books.byId? securityId <;> rfl
  | recover => exact set.foldl_recoverMoves
  | update => exact set.foldl_updateMoves

/-- To make the moves of a run one after the other is to make the run. -/
theorem foldl_moves (calls : List Call) :
    (moves calls set).foldl Move.run set = calls.foldl Call.run set := by
  induction calls generalizing set with
  | nil => rfl
  | cons c calls ih => rw [moves, List.foldl_append, foldl_callMoves, ih, List.foldl_cons]

/-! ## What moves keep -/

/-- What every move of a list keeps is kept by all of them together. -/
theorem foldl_induction {P : BookSet → Prop} (step : ∀ set m, P set → P (Move.run set m))
    {set : BookSet} (h : P set) (ms : List Move) : P (ms.foldl Move.run set) := by
  induction ms generalizing set with
  | nil => exact h
  | cons m ms ih => exact ih (step set m h)

/-- The network and the policy of a book set are what they were at first. -/
theorem foldl_fixed (ms : List Move) :
    (ms.foldl Move.run set).network = set.network ∧ (ms.foldl Move.run set).policy = set.policy :=
  foldl_induction (P := fun s => s.network = set.network ∧ s.policy = set.policy)
    (fun _ m h => by cases m <;> exact h) ⟨rfl, rfl⟩ ms

theorem terms_replay (target : Nat) (last : UInt64) (buffered : List Located) (bs : Books) :
    (replay target last buffered bs).2.list.map Book.terms = bs.list.map Book.terms := by
  induction buffered generalizing bs with
  | nil => rfl
  | cons located buffered ih =>
    have happly := bs.terms_applyIncrement located (.replay target)
    rw [replay]
    split
    · exact ih bs
    · dsimp only
      split
      · exact happly
      · exact (ih _).trans happly

theorem terms_spare (bs : Books) (cause : Restart) :
    (bs.spare cause).list.map Book.terms = bs.list.map Book.terms := by
  cases cause with
  | opened => rfl
  | retried target => exact Books.terms_modify fun _ _ => rfl
  | recovered =>
    change (bs.list.map fun b => { b with isActive := false }).map Book.terms = _
    rw [List.map_map]
    rfl

/-- No move changes what books there are. -/
theorem terms_run (m : Move) :
    (m.run set).books.list.map Book.terms = set.books.list.map Book.terms := by
  cases m with
  | applied located => exact set.books.terms_applyIncrement located .steady
  | shown target located => exact set.books.terms_applySnapshot _ _ target
  | replayed target last buffered => exact terms_replay target last buffered set.books
  | restarted cause => exact terms_spare set.books cause
  | dropped target => exact Books.terms_modify fun _ _ => rfl
  | subscribed target => exact Books.terms_modify fun _ _ => rfl
  | unsubscribed target => exact Books.terms_modify fun _ _ => rfl
  | _ => rfl

theorem terms_calls (calls : List Call) :
    (calls.foldl Call.run set).books.list.map Book.terms = set.books.list.map Book.terms := by
  rw [← foldl_moves]
  exact foldl_induction (P := fun s => s.books.list.map Book.terms = set.books.list.map Book.terms)
    (fun s m h => (s.terms_run m).trans h) rfl _

theorem foldl_increments {ms : List Move} (h : ∀ m ∈ ms, m.isInner = true) :
    (ms.foldl Move.run set).increments = set.increments := by
  induction ms generalizing set with
  | nil => rfl
  | cons m ms ih =>
    obtain ⟨hm, hms⟩ := List.forall_mem_cons.1 h
    refine (ih (m.run set) hms).trans ?_
    cases m <;> first | rfl | cases hm

/-! ## Journals -/

/-- The moves, each beside the book set that it is made in. -/
def journal : List Move → BookSet → List (BookSet × Move)
  | [], _ => []
  | m :: ms, set => (set, m) :: journal ms (m.run set)

theorem journal_append (ms ms' : List Move) :
    journal (ms ++ ms') set = journal ms set ++ journal ms' (ms.foldl Move.run set) := by
  induction ms generalizing set with
  | nil => rfl
  | cons m ms ih => exact congrArg ((set, m) :: ·) (ih (m.run set))

/-- What is read off from a journal, move by move. -/
def listed {α : Type} (read : BookSet → Move → List α) (ms : List Move) (set : BookSet) : List α :=
  (journal ms set).flatMap fun (s, m) => read s m

section

variable {α : Type} (read : BookSet → Move → List α)

theorem listed_cons (m : Move) (ms : List Move) :
    listed read (m :: ms) set = read set m ++ listed read ms (m.run set) := List.flatMap_cons

theorem listed_append (ms later : List Move) :
    listed read (ms ++ later) set =
      listed read ms set ++ listed read later (ms.foldl Move.run set) := by
  simp only [listed, journal_append, List.flatMap_append]

theorem listed_eq_nil {ms : List Move} (h : ∀ m ∈ ms, ∀ s, read s m = []) :
    listed read ms set = [] := by
  induction ms generalizing set with
  | nil => rfl
  | cons m ms ih =>
    obtain ⟨hm, hms⟩ := List.forall_mem_cons.1 h
    rw [listed_cons, hm, ih _ hms]
    rfl

end

/-- The book sets whose increment feeds are polled, in turn. -/
def pollsIn (run : List (BookSet × Move)) : List BookSet :=
  run.filterMap fun
    | (set, .polled) => some set
    | _ => none

theorem mem_pollsIn {run : List (BookSet × Move)} {set : BookSet} :
    set ∈ pollsIn run ↔ (set, .polled) ∈ run := by
  rw [pollsIn, List.mem_filterMap]
  constructor
  · rintro ⟨⟨s, m⟩, hmem, heq⟩
    cases m with
    | polled =>
      obtain rfl := Option.some.inj heq
      exact hmem
    | _ => cases heq
  · exact fun h => ⟨_, h, rfl⟩

theorem length_pollsIn_journal (ms : List Move) :
    (pollsIn (journal ms set)).length = ms.countP Move.isPoll := by
  induction ms generalizing set with
  | nil => rfl
  | cons m ms ih =>
    have hms := ih (m.run set)
    cases m with
    | polled => rw [List.countP_cons_of_pos rfl, ← hms]; rfl
    | _ => rw [List.countP_cons_of_neg (by simp [Move.isPoll]), ← hms]; rfl

theorem pollsIn_append (run later : List (BookSet × Move)) :
    pollsIn (run ++ later) = pollsIn run ++ pollsIn later := List.filterMap_append

/-- What every move keeps is true wherever a move is made. -/
theorem journal_induction {P : BookSet → Prop} (step : ∀ set m, P set → P (Move.run set m))
    {set s : BookSet} (h : P set) {ms : List Move} {m : Move} (hm : (s, m) ∈ journal ms set) :
    P s := by
  induction ms generalizing set with
  | nil => cases hm
  | cons first ms ih =>
    rcases List.mem_cons.1 hm with heq | hm
    · obtain ⟨rfl, -⟩ := Prod.mk.inj heq
      exact h
    · exact ih (step set first h) hm

end BookSet

end MarketFeed
