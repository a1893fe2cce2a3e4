import MarketFeed.Proofs.BookSet.Composition
import MarketFeed.Proofs.BookSet.Replay

/-!
# A join loses and duplicates nothing

An attempt to join holds the end of what has been taken since the last restart (`Collected`). A
snapshot that reaches it is past all that was taken earlier, so what is left of the attempt is all
that is due. This makes every replay of a join exact, and a run replays nothing but in its joins.
-/

namespace MarketFeed

namespace BookSet

/-- An attempt holds the last of the increments taken, and the number of the first of these. -/
def Collected (a : Attempt) (log : List Taken) : Prop :=
  ∃ earlier collected, log.filter (·.located.isRefresh) = earlier ++ collected ∧
    a.buffered.reverse = collected.map Taken.located ∧
    a.firstNumber = collected.head?.map Taken.number

theorem collected_nothing (log : List Taken) : Collected {} log :=
  ⟨log.filter (·.located.isRefresh), [], by simp, rfl, rfl⟩

/-- One more increment is collected. -/
theorem collected_add {a : Attempt} {log : List Taken} (h : Collected a log) {t : Taken}
    (hnumber : t.located.layout.seqNumOf t.located.message = some t.number)
    (hrefresh : t.located.isRefresh = true) : Collected (a.add t.located) (log ++ [t]) := by
  obtain ⟨earlier, collected, hlog, hbuffered, hfirst⟩ := h
  refine ⟨earlier, collected ++ [t], ?_, ?_, ?_⟩
  · simp [hlog, hrefresh]
  · simp [Attempt.add, hbuffered]
  · simp only [Attempt.add, hfirst, hnumber]
    cases collected <;> rfl

/-- The increments of a whole poll are collected. -/
theorem collected_foldl {a : Attempt} {log ts : List Taken} (h : Collected a log)
    (hnumbers : ∀ t ∈ ts, t.located.layout.seqNumOf t.located.message = some t.number) :
    Collected ((refreshes ts).foldl Attempt.add a) (log ++ ts) := by
  induction ts generalizing a log with
  | nil => rwa [List.append_nil]
  | cons t ts ih =>
    have hts := fun u hu => hnumbers u (List.mem_cons_of_mem t hu)
    rw [List.append_cons log t ts]
    by_cases hrefresh : t.located.isRefresh = true
    · rw [show refreshes (t :: ts) = t.located :: refreshes ts by simp [refreshes, hrefresh]]
      exact ih (collected_add h (hnumbers t (by simp)) hrefresh) hts
    · rw [show refreshes (t :: ts) = refreshes ts by simp [refreshes, hrefresh]]
      refine ih ?_ hts
      obtain ⟨earlier, collected, hlog, hrest⟩ := h
      exact ⟨earlier, collected, by simp [hlog, hrefresh], hrest⟩

/-- What is due after a snapshot that reaches the attempt has all been collected. -/
theorem dueAfter_of_isReachedBy {log earlier collected : List Taken} {last : UInt64}
    (hlog : log.filter (·.located.isRefresh) = earlier ++ collected)
    (hincreasing : log.Pairwise (·.number < ·.number))
    (hfirst : (collected.head?.map Taken.number).any (·.toNat ≤ last.toNat + 1) = true) :
    dueAfter last log = collected.filter fun t => decide (last < t.number) := by
  have hpast : ∀ t ∈ earlier, ¬ last < t.number := by
    intro t ht hlt
    cases collected with
    | nil => simp at hfirst
    | cons first rest =>
      have hpairs := hincreasing.filter (·.located.isRefresh)
      rw [hlog, List.pairwise_append] at hpairs
      have hbefore := hpairs.2.2 t ht first (by simp)
      simp only [List.head?_cons, Option.map_some, Option.any_some, decide_eq_true_eq] at hfirst
      rw [UInt64.lt_iff_toNat_lt] at hlt hbefore
      omega
  have hdue : dueAfter last log =
      (log.filter (·.located.isRefresh)).filter fun t => decide (last < t.number) := by
    rw [List.filter_filter, dueAfter]
    simp only [Bool.and_comm]
  rw [hdue, hlog, List.filter_append, List.filter_eq_nil_iff.2 (by simpa using hpast)]
  rfl

/-- A replay passes over the increments that the snapshot covers. -/
theorem replay_eq (target : Nat) (last : UInt64) {ts : List Taken}
    (hnumbers : ∀ t ∈ ts, t.located.layout.seqNumOf t.located.message = some t.number)
    (bs : Books) :
    replay target last (ts.map Taken.located) bs =
      applyInTurn target ((ts.filter fun t => decide (last < t.number)).map Taken.located) bs := by
  induction ts generalizing bs with
  | nil => rfl
  | cons t ts ih =>
    have hts := ih fun u hu => hnumbers u (List.mem_cons_of_mem t hu)
    simp only [List.map_cons, replay, hnumbers t (by simp), Option.any_some, decide_eq_true_eq]
    by_cases hcovered : t.number ≤ last
    · rw [if_pos hcovered, List.filter_cons_of_neg (by simpa using hcovered)]
      exact hts bs
    · have hlt : last < t.number := by simpa using hcovered
      rw [if_neg hcovered, List.filter_cons_of_pos (by simpa using hlt)]
      simp only [List.map_cons, applyInTurn, hts]

/-! ## Where the arbiter stays as it is -/

variable (set : BookSet)

theorem foldl_applySteady_watch (taken : List Located) :
    (taken.foldl applySteady set).watch = set.watch := by
  induction taken generalizing set with
  | nil => rfl
  | cons located taken ih => exact ih (set.applySteady located)

theorem finishJoin_arbiter (target : Nat) (a : Attempt) (last : UInt64) :
    (set.finishJoin target a last).2.watch.arbiter = set.watch.arbiter := by
  unfold finishJoin
  split <;> rfl

theorem trySnapshot_arbiter (target : Nat) (a : Attempt) (located : Located) :
    (set.trySnapshot target a located).2.watch.arbiter = set.watch.arbiter := by
  unfold trySnapshot
  split
  · rfl
  · split
    · rfl
    · split
      · rfl
      · rfl
      · exact finishJoin_arbiter _ target a _

/-! ## Step by step -/

/-- The attempt that a step goes on with holds what it should. -/
def JoinStep.Collects (log : List Taken) : JoinStep → Prop
  | .wait a => Collected a log
  | .giveUp | .joined | .failed _ => True

theorem poll_taken {taken : List Located} (h : set.poll.1 = .ok taken) :
    taken = refreshes (takenBy set.layouts 0 set.increments set.watch) := by
  refine (tracks_pollIncrements set.layouts 0 set.increments set.watch).2 taken ?_
  simp only [poll] at h
  cases hp : (pollIncrements set.layouts 0 set.increments set.watch).taken with
  | error e =>
    rw [hp] at h
    cases h
  | ok taken' =>
    rw [hp] at h
    exact congrArg Except.ok (Except.ok.inj h)

theorem finishJoin_collects (target : Nat) (a : Attempt) (last : UInt64) (log : List Taken) :
    (set.finishJoin target a last).1.Collects log := by
  unfold finishJoin
  split
  · trivial
  · dsimp only
    split <;> trivial

/-- These moves keep the arbiter in step with what is taken, and every replay in them is exact. -/
def TracksMoves (ms : List Move) (set : BookSet) : Prop :=
  Tracks (Follows set.watch.arbiter) (listed Move.events ms set)
    (Follows (ms.foldl Move.run set).watch.arbiter)

namespace TracksMoves

variable {set : BookSet} {ms later : List Move}

theorem nil : TracksMoves [] set := Tracks.nil fun _ h => h

theorem append (h : TracksMoves ms set) (h' : TracksMoves later (ms.foldl Move.run set)) :
    TracksMoves (ms ++ later) set := by
  unfold TracksMoves
  rw [listed_append, List.foldl_append]
  exact Tracks.append h h'

/-- Only a replay takes more than the move itself to be exact. -/
theorem single {m : Move} (hm : m.isReplay = false) : TracksMoves [m] set := by
  unfold TracksMoves
  rw [listed_cons]
  refine Tracks.append ?_ (.nil fun _ h => h)
  cases m with
  | polled => exact (tracks_pollIncrements set.layouts 0 set.increments set.watch).1
  | restarted cause => exact .restarted _
  | replayed target last buffered => cases hm
  | _ => exact .nil fun _ h => h

theorem of_no_replay (h : ∀ m ∈ ms, m.isReplay = false) : TracksMoves ms set := by
  induction ms generalizing set with
  | nil => exact nil
  | cons m ms ih =>
    obtain ⟨hm, hms⟩ := List.forall_mem_cons.1 h
    exact (single hm).append (ih hms)

end TracksMoves

theorem listed_finishJoinMoves (target : Nat) (a : Attempt) (last : UInt64) :
    listed Move.events (set.finishJoinMoves target a last) set =
      [.replayed target last a.buffered.reverse] := by
  unfold finishJoinMoves
  rcases replay target last a.buffered.reverse set.books with ⟨n, books⟩
  cases n <;> rfl

theorem tracks_trySnapshot (target : Nat) (a : Attempt) (located : Located) :
    Tracks (fun log => Follows set.watch.arbiter log ∧ Collected a log)
      (listed Move.events (set.trySnapshotMoves target a located) set)
      fun log => Follows (set.trySnapshot target a located).2.watch.arbiter log ∧
        (set.trySnapshot target a located).1.Collects log := by
  rw [trySnapshot_arbiter]
  unfold trySnapshotMoves trySnapshot
  cases located.layout.lastProcessedOf located.message with
  | none => exact .nil fun log h => h
  | some last =>
    by_cases hreached : a.isReachedBy last = true
    · simp only [hreached, Bool.not_true, Bool.false_eq_true, if_false, listed_cons, Move.events,
        Move.run, List.nil_append]
      rcases happly : set.books.applySnapshot located.message located.layout target with
        ⟨result, books⟩
      cases result with
      | error e => exact .nil fun log h => ⟨h.1, trivial⟩
      | ok found =>
        cases found with
        | false => exact .nil fun log h => h
        | true =>
          rw [listed_finishJoinMoves]
          intro log h _
          obtain ⟨hfollows, earlier, collected, hlog, hbuffered, hfirst⟩ := h
          refine ⟨.cons ?_ (.nil _ _), hfollows, finishJoin_collects _ target a last log⟩
          have hmem : ∀ t ∈ collected, t ∈ log := fun t ht =>
            (List.mem_filter.1 (hlog ▸ List.mem_append_right earlier ht)).1
          rw [Attempt.isReachedBy, hfirst] at hreached
          refine ⟨fun bs => ?_, hfollows.increasing.filter _, hfollows.numbered⟩
          rw [hbuffered, dueAfter_of_isReachedBy hlog hfollows.increasing hreached]
          exact replay_eq target last (fun t ht => hfollows.numbered t (hmem t ht)) bs
    · simp only [hreached, Bool.not_false, if_true]
      exact .nil fun log h => h

theorem tracks_pollJoin (target : Nat) (a : Attempt) :
    Tracks (fun log => Follows set.watch.arbiter log ∧ Collected a log)
      (listed Move.events (set.pollJoinMoves target a) set)
      fun log => Follows (set.pollJoin target a).2.watch.arbiter log ∧
        (set.pollJoin target a).1.Collects log := by
  have hpoll := (tracks_pollIncrements set.layouts 0 set.increments set.watch).1
  change Tracks _ (set.accepted.map Event.taken) (Follows set.poll.2.watch.arbiter) at hpoll
  have htaken := @set.poll_taken
  unfold pollJoinMoves pollJoin
  simp only [listed_cons, Move.events, Move.run]
  rcases hset : set.poll with ⟨result, polled⟩
  rw [hset] at hpoll htaken
  cases result with
  | error e =>
    refine Tracks.append ?_ (.nil fun log h => h)
    intro log h hwrap
    obtain ⟨hexact, hfollows⟩ := hpoll log h.1 hwrap
    exact ⟨hexact, hfollows, trivial⟩
  | ok taken =>
    have hcollect : Tracks (fun log => Follows set.watch.arbiter log ∧ Collected a log)
        (set.accepted.map .taken)
        fun log => Follows polled.watch.arbiter log ∧
          Collected (taken.foldl Attempt.add a) log := by
      intro log h hwrap
      obtain ⟨hexact, hfollows⟩ := hpoll log h.1 hwrap
      refine ⟨hexact, hfollows, ?_⟩
      rw [@htaken taken rfl]
      rw [takenAfter_taken] at hfollows ⊢
      exact collected_foldl h.2 fun t ht => hfollows.numbered t (List.mem_append_right log ht)
    refine hcollect.append ?_
    dsimp only
    split
    · exact .nil fun log h => ⟨h.1, trivial⟩
    · have hwatch := foldl_applySteady_watch polled taken
      rw [listed_append, listed_eq_nil _ _ (by simp [Move.events]), foldl_applied, listed_cons]
      generalize taken.foldl applySteady polled = applied at hwatch ⊢
      simp only [Move.events, Move.run, List.nil_append]
      rcases pollSnapshots applied.layouts applied.network applied.snapshots
        with ⟨result, snapshots⟩
      rw [← hwatch]
      rcases result with e | found
      · exact .nil fun log h => ⟨h.1, trivial⟩
      · cases found with
        | none => exact .nil fun log h => h
        | some located => exact tracks_trySnapshot { applied with snapshots } target _ located

theorem tracks_joinWithin (target polls : Nat) (a : Attempt) :
    Tracks (fun log => Follows set.watch.arbiter log ∧ Collected a log)
      (listed Move.events (joinWithinMoves target polls a set) set)
      (Follows (joinWithin target polls a set).2.watch.arbiter) := by
  induction polls generalizing a set with
  | zero => exact .nil fun log h => h.1
  | succ polls ih =>
    rw [joinWithinMoves, joinWithin, listed_append, foldl_pollJoinMoves]
    refine (set.tracks_pollJoin target a).append ?_
    rcases set.pollJoin target a with ⟨step, polled⟩
    cases step with
    | wait a => exact ih polled a
    | failed e => exact .nil fun log h => h.1
    | joined => exact .nil fun log h => h.1
    | giveUp =>
      have hrestart : TracksMoves
          [.left, .counted (·.countJoinRetry), .restarted (.retried target), .opened] polled :=
        .of_no_replay (by simp [Move.isReplay])
      rw [listed_append]
      refine Tracks.append (fun log h => hrestart log h.1) ?_
      rw [foldl_retryMoves]
      dsimp only
      rcases (polled.closeSnapshots.count (·.countJoinRetry)).resetArbiter.beginJoin target
        with ⟨result, begun⟩
      cases result with
      | error e => exact .nil fun log h => h
      | ok _ => exact fun log h => ih begun {} log ⟨h, collected_nothing log⟩

theorem tracks_join (target : Nat) : TracksMoves (set.joinMoves target) set := by
  unfold TracksMoves
  rw [foldl_joinMoves]
  unfold joinMoves join
  rw [listed_append]
  refine Tracks.append (TracksMoves.of_no_replay (by simp [Move.isReplay])) ?_
  rw [foldl_beginMoves]
  rcases set.beginJoin target with ⟨result, begun⟩
  cases result with
  | error e => exact .nil fun log h => h
  | ok _ => exact fun log h => begun.tracks_joinWithin target _ {} log ⟨h, collected_nothing log⟩

/-! ## Runs -/

theorem tracksMoves_composable : JoinComposable TracksMoves where
  nil := .nil
  append := .append
  aside hm := .single (Move.isReplay_of_isApart hm)
  failed _ := .single rfl
  taken _ := .of_no_replay (by simp [Move.isReplay])
  join := tracks_join _ _

/-- Whatever a run does, every replay in it is exact. -/
theorem tracks_history (calls : List Call) :
    Tracks (Follows set.watch.arbiter) (history calls set)
      (Follows (calls.foldl Call.run set).watch.arbiter) := by
  rw [← foldl_moves]
  exact tracksMoves_composable.moves_of_wiped set (fun _ => .single rfl) calls

theorem create_arbiter {network : Network} {config : Config} {templates : TemplateSet}
    (h : create network config templates = .ok set) :
    ∃ feeds, set.watch.arbiter = .create feeds := by
  obtain ⟨layouts, rfl⟩ := create_eq h
  exact ⟨_, rfl⟩

/--
However the books of a new set are joined, recovered and updated: if the numbers taken do not wrap,
every replay applies just what has been taken past its snapshot since the last restart. The moves
that this is read off from are all that the calls do.
-/
theorem history_exact {network : Network} {config : Config} {templates : TemplateSet}
    (h : create network config templates = .ok set) (calls : List Call)
    (hwrap : Each Event.Unwrapped [] (history calls set)) :
    (moves calls set).foldl Move.run set = calls.foldl Call.run set ∧
      Each Event.Exact [] (history calls set) := by
  obtain ⟨feeds, harbiter⟩ := set.create_arbiter h
  have htracks := set.tracks_history calls [] (harbiter ▸ follows_create feeds) hwrap
  exact ⟨set.foldl_moves calls, htracks.1⟩

/-- Increments and snapshots of one instrument. -/
def market : TemplateSet where
  templates := [
    { id := 1, name := "Increment", fields := [
      .scalar {
        name := "MessageType", id := 35, kind := .ascii, op := .constant, init := some (.bytes [88]) },
      .scalar { name := "MsgSeqNum", id := 34, kind := .uint },
      .group { name := "MDEntries", id := 268, kind := .sequence }
        (.scalar { name := "NoMDEntries", id := 268, kind := .uint })
        [.scalar { name := "SecurityID", id := 48, kind := .uint },
          .scalar { name := "RptSeq", id := 83, kind := .uint },
          .scalar { name := "MDEntryType", id := 269, kind := .ascii },
          .scalar { name := "MDUpdateAction", id := 279, kind := .uint },
          .scalar { name := "MDEntryPx", id := 270, kind := .decimal },
          .scalar { name := "MDEntrySize", id := 271, kind := .int }]] },
    { id := 2, name := "Snapshot", fields := [
      .scalar {
        name := "MessageType", id := 35, kind := .ascii, op := .constant, init := some (.bytes [87]) },
      .scalar { name := "MsgSeqNum", id := 34, kind := .uint },
      .scalar { name := "LastMsgSeqNumProcessed", id := 369, kind := .uint },
      .scalar { name := "SecurityID", id := 48, kind := .uint },
      .scalar { name := "RptSeq", id := 83, kind := .uint },
      .group { name := "MDEntries", id := 268, kind := .sequence }
        (.scalar { name := "NoMDEntries", id := 268, kind := .uint })
        [.scalar { name := "MDEntryType", id := 269, kind := .ascii },
          .scalar { name := "MDEntryPx", id := 270, kind := .decimal },
          .scalar { name := "MDEntrySize", id := 271, kind := .int }]] }]
  accepted := rfl

def marketConfig : Config where
  feeds := [
    { name := "I", kind := .increment, transport := .file "increments" },
    { name := "S", kind := .snapshot, transport := .file "snapshots" }]
  books := [{ symbol := "B", securityId := 5, tick := ⟨1, 0⟩, depth := 3 }]
  sync := { autoRecover := false, maxJoinPolls := some 3 }

/-- Increments 1 to 3, and two snapshots: one of no level, and one up to increment 2. -/
def marketNetwork : Network
  | .file "increments" => some [
    .bytes [192, 129, 129, 129, 133, 129, 176, 128, 128, 0, 228, 138],
    .bytes [128, 130, 129, 133, 130, 176, 128, 128, 0, 227, 138],
    .bytes [128, 131, 129, 133, 131, 176, 128, 128, 0, 229, 138]]
  | .file "snapshots" => some [
    .bytes [192, 130, 129, 128, 133, 128, 128],
    .bytes [128, 130, 130, 133, 130, 130, 176, 128, 0, 228, 138, 176, 128, 0, 227, 138]]
  | _ => none

/-- The number that a snapshot is up to, and those of the increments at hand. -/
def Event.replayedNumbers : Event → List (UInt64 × List (Option UInt64))
  | .replayed _ last buffered => [(last, buffered.map fun l => l.layout.seqNumOf l.message)]
  | .taken _ | .restarted => []

/-- Increment 1 is taken before the join, and 2 before the snapshot that the join ends with. -/
theorem history_exact_market :
    ∃ set, create marketNetwork marketConfig market = .ok set ∧
      (history [.openAll, .update, .join 0] set).flatMap Event.replayedNumbers =
        [(2, [some 2, some 3])] ∧
      Each Event.Unwrapped [] (history [.openAll, .update, .join 0] set) ∧
      Each Event.Exact [] (history [.openAll, .update, .join 0] set) := by
  have hset : create marketNetwork marketConfig market = .ok _ := rfl
  refine ⟨_, hset, by decide +kernel, by decide +kernel, ?_⟩
  exact (history_exact _ hset _ (by decide +kernel)).2

end BookSet

end MarketFeed
