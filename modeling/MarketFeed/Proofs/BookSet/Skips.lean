import MarketFeed.Proofs.BookSet.Join

/-!
# Books across a skip

The numbers that the arbiter takes follow on each other, so a number can be skipped only where the
arbiter was restarted in between. Which books outlive a restart depends on what it was for: a
recovery drops every book, but a join that tries again drops only its own, and opening the feeds
drops none.
-/

namespace MarketFeed

/-! ## Numbers that follow on each other -/

/-- The number that the arbiter waits to see followed. -/
def lastNumber : Option UInt64 → List Turning → Option UInt64
  | last, [] => last
  | _, .taken t :: ts => lastNumber (some t.number) ts
  | _, .restarted .. :: ts => lastNumber none ts
  | last, .joined _ :: ts => lastNumber last ts

/-- Every number taken follows the one before it, unless the arbiter was restarted in between. -/
def Chained : Option UInt64 → List Turning → Prop
  | _, [] => True
  | last, .taken t :: ts => (∀ n ∈ last, t.number = n + 1) ∧ Chained (some t.number) ts
  | _, .restarted .. :: ts => Chained none ts
  | last, .joined _ :: ts => Chained last ts

theorem lastNumber_append (last : Option UInt64) (ts us : List Turning) :
    lastNumber last (ts ++ us) = lastNumber (lastNumber last ts) us := by
  induction ts generalizing last with
  | nil => rfl
  | cons t ts ih => cases t <;> exact ih _

theorem chained_append {last : Option UInt64} {ts us : List Turning} :
    Chained last (ts ++ us) ↔ Chained last ts ∧ Chained (lastNumber last ts) us := by
  induction ts generalizing last with
  | nil => simp [Chained, lastNumber]
  | cons t ts ih =>
    cases t with
    | taken t => simp only [List.cons_append, Chained, lastNumber, ih, and_assoc]
    | restarted cause books => exact ih
    | joined target => exact ih

/-- A number that does not follow on the last one comes behind a restart. -/
theorem restarted_of_skip {n : UInt64} {mid : List Turning} {u : Taken} {after : List Turning}
    (h : Chained (some n) (mid ++ .taken u :: after)) (hmid : ∀ v, .taken v ∉ mid)
    (hskip : u.number ≠ n + 1) :
    ∃ early cause books late, mid = early ++ .restarted cause books :: late := by
  induction mid with
  | nil => exact (hskip (h.1 n rfl)).elim
  | cons t mid ih =>
    cases t with
    | taken t => exact (hmid t (by simp)).elim
    | restarted cause books => exact ⟨[], cause, books, mid, rfl⟩
    | joined target =>
      obtain ⟨early, cause, books, late, rfl⟩ := ih h fun v hv => hmid v (List.mem_cons_of_mem _ hv)
      exact ⟨.joined target :: early, cause, books, late, rfl⟩

/-- What a feed brings is chained to what the arbiter has taken last. -/
theorem chained_judge (w : Watch) (layouts : Layouts) (feed : Nat) (m : Message) :
    Chained w.arbiter.last ((w.takenOf layouts feed m).map .taken) ∧
      lastNumber w.arbiter.last ((w.takenOf layouts feed m).map .taken) =
        (w.judge layouts feed m).2.arbiter.last := by
  unfold Watch.takenOf Watch.judge
  cases layouts.place? m with
  | none => exact ⟨trivial, rfl⟩
  | some located =>
    dsimp only
    cases located.layout.seqNumOf m with
    | none => exact ⟨trivial, rfl⟩
    | some number =>
      have harbiter : (w.observe feed number).2.arbiter = (w.arbiter.observe feed number).2 := rfl
      have htaken : (w.observe feed number).1 = (w.arbiter.observe feed number).1.isAccepted := rfl
      rcases hobserve : w.observe feed number with ⟨taken, w'⟩
      rw [hobserve] at harbiter htaken
      dsimp only at harbiter htaken ⊢
      rw [hobserve]
      cases taken with
      | false =>
        simp only [Bool.false_eq_true, if_false, false_and]
        refine ⟨trivial, ?_⟩
        rw [harbiter]
        exact (Arbiter.last_observe_of_rejected htaken.symm).symm
      | true =>
        have hnext := Arbiter.isAccepted_observe.1 htaken.symm
        have hlast := Arbiter.last_observe_of_accepted htaken.symm
        rw [← harbiter] at hlast
        simp only [if_true, true_and]
        refine ⟨⟨hnext, trivial⟩, ?_⟩
        split <;> exact hlast.symm

theorem chained_takenBy (layouts : Layouts) (i : Nat) (feeds : List Feed) (w : Watch) :
    Chained w.arbiter.last ((takenBy layouts i feeds w).map .taken) ∧
      lastNumber w.arbiter.last ((takenBy layouts i feeds w).map .taken) =
        (pollIncrements layouts i feeds w).watch.arbiter.last := by
  induction feeds generalizing i w with
  | nil => exact ⟨trivial, rfl⟩
  | cons f feeds ih =>
    simp only [takenBy, pollIncrements]
    split
    · exact ih (i + 1) w
    · rcases f.receive with ⟨result, f'⟩
      rcases result with e | m
      · exact ⟨trivial, rfl⟩
      · cases m with
        | none => exact ih (i + 1) w
        | some m =>
          obtain ⟨hjudge, hlast⟩ := chained_judge w layouts i m
          obtain ⟨hrest, hend⟩ := ih (i + 1) (w.judge layouts i m).2
          rw [List.map_append, chained_append, lastNumber_append, hlast]
          exact ⟨⟨hjudge, hrest⟩, hend⟩

/-! ## Books across a restart -/

namespace BookSet

/--
What leads from one book set to another: the numbers follow on each other, and a book is active
behind a restart only if it has joined since, or was active and is spared.
-/
structure Passes (set : BookSet) (ts : List Turning) (set' : BookSet) : Prop where
  numbers : Chained set.watch.arbiter.last ts
  last : lastNumber set.watch.arbiter.last ts = set'.watch.arbiter.last
  active : ∀ i, set'.books.isActive i = true → .joined i ∈ ts ∨ set.books.isActive i = true
  spared : ∀ before cause books after, ts = before ++ .restarted cause books :: after →
    ∀ i, set'.books.isActive i = true →
      .joined i ∈ after ∨ books.isActive i = true ∧ cause.Spares i

namespace Passes

variable {set set' set'' : BookSet} {ts us : List Turning}

theorem nil (hlast : set'.watch.arbiter.last = set.watch.arbiter.last)
    (hactive : ∀ i, set'.books.isActive i = true → set.books.isActive i = true) :
    Passes set [] set' :=
  ⟨trivial, hlast.symm, fun i hi => .inr (hactive i hi), fun _ _ _ _ h => by simp at h⟩

theorem append (h : Passes set ts set') (h' : Passes set' us set'') :
    Passes set (ts ++ us) set'' where
  numbers := chained_append.2 ⟨h.numbers, h.last ▸ h'.numbers⟩
  last := by rw [lastNumber_append, h.last, h'.last]
  active i hi := by
    rcases h'.active i hi with hjoined | hi
    · exact .inl (List.mem_append_right ts hjoined)
    · exact (h.active i hi).imp_left (List.mem_append_left us)
  spared before cause books after heq i hi := by
    rcases List.append_eq_append_iff.1 heq with ⟨mid, hbefore, hus⟩ | ⟨mid, hts, hafter⟩
    · exact h'.spared mid cause books after hus i hi
    · cases mid with
      | nil => exact h'.spared [] cause books after hafter.symm i hi
      | cons t mid =>
        obtain ⟨rfl, rfl⟩ := List.cons.inj hafter
        rcases h'.active i hi with hjoined | hi
        · exact .inl (List.mem_append_right mid hjoined)
        · exact (h.spared before cause books mid hts i hi).imp_left (List.mem_append_left us)

theorem joined {target : Nat} (hlast : set'.watch.arbiter.last = set.watch.arbiter.last)
    (hactive : ∀ i, set'.books.isActive i = true → set.books.isActive i = true ∨ i = target) :
    Passes set [.joined target] set' := by
  refine ⟨trivial, hlast.symm, fun i hi => ?_, fun before cause books after heq => ?_⟩
  · exact ((hactive i hi).imp_right fun hi => by simp [hi]).symm
  · cases before with
    | nil => cases heq
    | cons t before => simp at heq

theorem restarted {cause : Restart} (hlast : set'.watch.arbiter.last = none)
    (hactive : ∀ i, set'.books.isActive i = true →
      set.books.isActive i = true ∧ cause.Spares i) :
    Passes set [.restarted cause set.books] set' := by
  refine ⟨trivial, hlast.symm, fun i hi => .inr (hactive i hi).1,
    fun before cause' books after heq i hi => ?_⟩
  cases before with
  | nil =>
    obtain ⟨hhead, rfl⟩ := List.cons.inj heq
    obtain ⟨rfl, rfl⟩ := Turning.restarted.inj hhead
    exact .inr (hactive i hi)
  | cons t before => simp at heq

end Passes

variable (set : BookSet)

theorem passes_poll : Passes set (set.accepted.map .taken) set.poll.2 := by
  obtain ⟨hnumbers, hlast⟩ := chained_takenBy set.layouts 0 set.increments set.watch
  refine ⟨hnumbers, hlast, fun i hi => .inr hi, fun before cause books after heq => ?_⟩
  have : Turning.restarted cause books ∈ set.accepted.map .taken := by
    rw [heq]
    simp
  obtain ⟨t, -, ht⟩ := List.mem_map.1 this
  cases ht

theorem pollJoin_arbiter (target : Nat) (a : Attempt) :
    (set.pollJoin target a).2.watch.arbiter = set.poll.2.watch.arbiter := by
  unfold pollJoin
  rcases set.poll with ⟨result, polled⟩
  cases result with
  | error e => rfl
  | ok taken =>
    have hwatch := foldl_applySteady_watch polled taken
    dsimp only
    split
    · rfl
    · generalize taken.foldl applySteady polled = applied at hwatch ⊢
      rw [← hwatch]
      rcases pollSnapshots applied.layouts applied.network applied.snapshots
        with ⟨result, snapshots⟩
      rcases result with e | found
      · rfl
      · cases found with
        | none => rfl
        | some located => exact trySnapshot_arbiter { applied with snapshots } target _ located

theorem isActive_spare (bs : Books) (cause : Restart) (i : Nat)
    (h : (bs.spare cause).isActive i = true) : bs.isActive i = true ∧ cause.Spares i := by
  cases cause with
  | opened => exact ⟨h, trivial⟩
  | retried target => exact (Books.isActive_deactivate bs target i).1 h
  | recovered =>
    simp only [Books.isActive, Books.spare, List.getElem?_map] at h
    cases hb : bs.list[i]? <;> simp [hb] at h

/-- These moves lead on with the turnings that they make. -/
def PassesMoves (ms : List Move) (set : BookSet) : Prop :=
  Passes set (listed Move.turnings ms set) (ms.foldl Move.run set)

namespace PassesMoves

variable {set : BookSet} {ms later : List Move}

theorem nil : PassesMoves [] set := Passes.nil rfl fun _ hi => hi

theorem append (h : PassesMoves ms set) (h' : PassesMoves later (ms.foldl Move.run set)) :
    PassesMoves (ms ++ later) set := by
  unfold PassesMoves
  rw [listed_append, List.foldl_append]
  exact Passes.append h h'

theorem aside {m : Move} (hm : m.isApart = true) : PassesMoves [m] set := by
  cases m with
  | restarted cause => exact .restarted rfl (isActive_spare set.books cause)
  | joined target => exact .joined rfl fun i hi => .inl hi
  | dropped target => exact Passes.nil rfl fun i hi => ((Books.isActive_deactivate _ _ _).1 hi).1
  | subscribed target =>
    refine Passes.nil rfl fun i hi => ?_
    have hsame := set.books.isActive_modify target i (fun b => { b with isSubscribed := true })
      fun _ _ => rfl
    exact hsame.symm.trans hi
  | unsubscribed target =>
    refine Passes.nil rfl fun i hi => ?_
    change (set.books.modify target _).isActive i = true at hi
    by_cases hne : target = i
    · subst hne
      rw [Books.isActive, Books.getElem?_modify, if_pos rfl] at hi
      cases hb : set.books.list[target]? <;> simp [hb] at hi
    · exact (Books.isActive_modify_ne _ hne _).symm.trans hi
  | polled | applied | wiped | shown | replayed => cases hm
  | _ => exact Passes.nil rfl fun i hi => hi

theorem polled : PassesMoves [.polled] set := by
  unfold PassesMoves
  rw [listed_cons]
  exact set.passes_poll.append nil

theorem taken (taken : List Located) : PassesMoves (.polled :: taken.map .applied) set := by
  change PassesMoves ([.polled] ++ taken.map .applied) set
  refine polled.append ?_
  unfold PassesMoves
  rw [listed_eq_nil _ _ (by simp [Move.turnings]), foldl_applied]
  exact Passes.nil (by rw [foldl_applySteady_watch]) fun i hi =>
    set.poll.2.isActive_of_foldl_applySteady hi

end PassesMoves

theorem listed_pollJoinMoves (target : Nat) (a : Attempt) :
    listed Move.turnings (set.pollJoinMoves target a) set = set.accepted.map .taken := by
  obtain ⟨rest, hmoves, hinner⟩ := set.pollJoinMoves_eq target a
  rw [hmoves, listed_cons, listed_eq_nil _ _ ?_, List.append_nil]
  · rfl
  · intro m hm s
    have := hinner m hm
    cases m <;> first | rfl | cases this

theorem passes_joinWithin (target polls : Nat) (a : Attempt) :
    Passes set (listed Move.turnings (joinWithinMoves target polls a set) set)
      (joinWithin target polls a set).2 := by
  induction polls generalizing a set with
  | zero => exact .nil rfl fun i hi => hi
  | succ polls ih =>
    have harbiter := congrArg Arbiter.last (set.pollJoin_arbiter target a)
    have hactive := (set.attempts_pollJoin target a).active
    rw [joinWithinMoves, joinWithin, listed_append, listed_pollJoinMoves, foldl_pollJoinMoves]
    refine set.passes_poll.append ?_
    rcases hstep : set.pollJoin target a with ⟨step, polled⟩
    rw [hstep] at harbiter hactive
    have hnext (hne : step ≠ .joined) : Passes set.poll.2 [] polled :=
      .nil harbiter fun i hi => (hactive i hi).resolve_right fun hi => hne hi.2
    cases step with
    | wait a => exact (hnext (by simp)).append (ih polled a)
    | failed e => exact (hnext (by simp)).append (.nil rfl fun i hi => hi)
    | joined => exact .joined harbiter fun i hi => (hactive i hi).imp_right And.left
    | giveUp =>
      dsimp only
      rw [listed_append, foldl_retryMoves]
      rcases hbegin : (polled.closeSnapshots.count (·.countJoinRetry)).resetArbiter.beginJoin target
        with ⟨result, begun⟩
      have hbegun : Passes set.poll.2 [.restarted (.retried target) polled.books] begun := by
        obtain rfl := congrArg Prod.snd hbegin
        refine (hnext (by simp)).append (.restarted rfl fun i hi => ?_)
        exact (Books.isActive_deactivate _ _ _).1 hi
      refine hbegun.append ?_
      cases result with
      | error e => exact .nil rfl fun i hi => hi
      | ok _ => exact ih begun {}

theorem passes_join (target : Nat) : PassesMoves (set.joinMoves target) set := by
  unfold PassesMoves
  rw [foldl_joinMoves]
  unfold joinMoves join
  rw [listed_append, foldl_beginMoves]
  rcases hbegin : set.beginJoin target with ⟨result, begun⟩
  have hbegun : Passes set [] begun := by
    obtain rfl := congrArg Prod.snd hbegin
    exact .nil rfl fun i hi => ((Books.isActive_deactivate _ _ _).1 hi).1
  refine hbegun.append ?_
  cases result with
  | error e => exact .nil rfl fun i hi => hi
  | ok _ => exact begun.passes_joinWithin target _ {}

/-! ## Runs -/

theorem passesMoves_composable : JoinComposable PassesMoves where
  nil := .nil
  append := .append
  aside := .aside
  failed _ := .polled
  taken _ := .taken _
  join := passes_join _ _

theorem passes_turnings (calls : List Call) :
    Passes set (turnings calls set) (calls.foldl Call.run set) := by
  rw [← foldl_moves]
  refine passesMoves_composable.moves_of_wiped set (fun s => ?_) calls
  exact Passes.nil rfl fun i hi => hi

/--
Wherever a run skips a number, the arbiter was restarted between the two that were taken. A book
that is active at the end has joined again since, or it was active at the restart and the restart
was not a recovery, nor the next try of that book's own join. The moves that this is read off from
are all that the calls do.
-/
theorem active_across_skip (calls : List Call) {before mid after : List Turning} {t u : Taken}
    (hrun : turnings calls set = before ++ .taken t :: (mid ++ .taken u :: after))
    (hmid : ∀ v, .taken v ∉ mid) (hskip : u.number ≠ t.number + 1) :
    (moves calls set).foldl Move.run set = calls.foldl Call.run set ∧
    ∃ early cause books late, mid = early ++ .restarted cause books :: late ∧
      ∀ i, (calls.foldl Call.run set).books.isActive i = true →
        .joined i ∈ late ++ .taken u :: after ∨ books.isActive i = true ∧ cause.Spares i := by
  have hpasses := set.passes_turnings calls
  have hnumbers := hpasses.numbers
  rw [hrun, chained_append] at hnumbers
  obtain ⟨early, cause, books, late, rfl⟩ := restarted_of_skip hnumbers.2.2 hmid hskip
  refine ⟨set.foldl_moves calls, early, cause, books, late, rfl, fun i hi => ?_⟩
  exact hpasses.spared (before ++ .taken t :: early) cause books (late ++ .taken u :: after)
    (by rw [hrun]; simp) i hi

def pairConfig : Config := { marketConfig with
  books := [
    { symbol := "A", securityId := 5, tick := ⟨1, 0⟩, depth := 3 },
    { symbol := "B", securityId := 6, tick := ⟨1, 0⟩, depth := 3 }] }

/-- Increments 1, 5 and 6, the last two of book B, and snapshots of A up to 1 and of B up to 5. -/
def pairNetwork : Network
  | .file "increments" => some [
    .bytes [192, 129, 129, 129, 133, 129, 176, 128, 128, 0, 228, 138],
    .bytes [128, 133, 129, 134, 129, 176, 128, 128, 0, 228, 138],
    .bytes [128, 134, 129, 134, 130, 176, 128, 128, 0, 227, 138]]
  | .file "snapshots" => some [
    .bytes [192, 130, 129, 129, 133, 129, 129, 176, 128, 0, 228, 138],
    .bytes [128, 130, 133, 134, 129, 129, 176, 128, 0, 228, 138]]
  | _ => none

def pairSet : BookSet := (create pairNetwork pairConfig market).toOption.get rfl

def pairCalls : List Call := [.openAll, .subscribe 5, .subscribe 6]

/-- A turning without what it carries along. -/
inductive Outline where
  | taken (number : UInt64)
  | restarted (cause : Restart)
  | joined (target : Nat)
deriving DecidableEq

def Outline.of : Turning → Outline
  | .taken t => .taken t.number
  | .restarted cause _ => .restarted cause
  | .joined target => .joined target

theorem outline_pair :
    (turnings pairCalls pairSet).map Outline.of =
        [.restarted .opened, .taken 1, .joined 0, .restarted (.retried 1), .taken 6, .joined 1] ∧
      (pairCalls.foldl Call.run pairSet).books.isActive 0 = true := by
  decide +kernel

theorem Outline.of_eq_taken {x : Turning} {n : UInt64} (h : Outline.of x = .taken n) :
    ∃ t, x = .taken t ∧ t.number = n := by
  cases x with
  | taken t => exact ⟨t, rfl, Outline.taken.inj h⟩
  | restarted cause books => cases h
  | joined target => cases h

/-- The join of B restarts the arbiter between 1 and 6, and A was active then. -/
theorem active_across_skip_pair :
    ∃ before mid after t u,
      turnings pairCalls pairSet = before ++ .taken t :: (mid ++ .taken u :: after) ∧
        (∀ v, .taken v ∉ mid) ∧ t.number = 1 ∧ u.number = 6 ∧
        ∃ early cause books late, mid = early ++ .restarted cause books :: late ∧
          (.joined 0 ∈ late ++ .taken u :: after ∨ books.isActive 0 = true ∧ cause.Spares 0) := by
  obtain ⟨houtline, hactive⟩ := outline_pair
  rw [← List.singleton_append, List.map_eq_append_iff] at houtline
  obtain ⟨before, behind, hrun, -, hbehind⟩ := houtline
  obtain ⟨x, later, rfl, hx, hlater⟩ := List.map_eq_cons_iff.1 hbehind
  obtain ⟨t, rfl, ht⟩ := Outline.of_eq_taken hx
  obtain ⟨mid, last, rfl, hmid, hlast⟩ := List.map_eq_append_iff.1
    (show later.map Outline.of = [.joined 0, .restarted (.retried 1)] ++ [.taken 6, .joined 1] from
      hlater)
  obtain ⟨y, after, rfl, hy, -⟩ := List.map_eq_cons_iff.1 hlast
  obtain ⟨u, rfl, hu⟩ := Outline.of_eq_taken hy
  have hnone : ∀ v, .taken v ∉ mid := by
    intro v hv
    have := List.mem_map_of_mem (f := Outline.of) hv
    rw [hmid] at this
    simp [Outline.of] at this
  obtain ⟨-, early, cause, books, late, heq, hspared⟩ :=
    active_across_skip pairSet pairCalls hrun hnone (by rw [ht, hu]; decide)
  exact ⟨before, mid, after, t, u, hrun, hnone, ht, hu, early, cause, books, late, heq,
    hspared 0 hactive⟩

/--
The numbers from 2 to 5 are skipped while B joins. A was active before, and still is, though it has
not joined again.
-/
theorem active_across_retry :
    ∃ before after, (turnings pairCalls pairSet).map Outline.of =
        before ++ .taken 1 :: .joined 0 :: .restarted (.retried 1) :: .taken 6 :: after ∧
      .joined 0 ∉ after ∧
      ([.openAll, .subscribe 5].foldl Call.run pairSet).books.isActive 0 = true ∧
      (pairCalls.foldl Call.run pairSet).books.isActive 0 = true :=
  ⟨[.restarted .opened], [.joined 1], outline_pair.1, by decide, by decide +kernel, outline_pair.2⟩

end BookSet

end MarketFeed
