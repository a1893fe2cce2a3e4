import MarketFeed.Proofs.BookSet.Moves

/-!
# What a run has from its parts

A run is made of polls beside the applications that they call for, of joins, and of moves that stand
by themselves. What all of these have, and what goes over from two lists of moves to both together,
a run has as well (`JoinComposable.moves`). Often a join has it from the snapshots that it tries, and
need not be looked into as a whole (`TrialComposable.joins`).
-/

namespace MarketFeed

namespace BookSet

/-- A move by which nothing is taken or applied, and no mark wiped off. -/
def Move.isAside : Move → Bool
  | .polled | .applied _ | .wiped => false
  | _ => true

theorem Move.isAside_of_isTrial {m : Move} (h : m.isTrial = true) : m.isAside = true := by
  cases m <;> first | rfl | cases h

theorem Move.isWipe_of_isAside {m : Move} (h : m.isAside = true) : m.isWipe = false := by
  cases m <;> first | rfl | cases h

/-- A move aside that has no part in the trial of a snapshot. -/
def Move.isApart : Move → Bool
  | .polled | .applied _ | .wiped | .shown .. | .replayed .. => false
  | _ => true

theorem Move.isAside_of_isApart {m : Move} (h : m.isApart = true) : m.isAside = true := by
  cases m <;> first | rfl | cases h

theorem Move.isReplay_of_isApart {m : Move} (h : m.isApart = true) : m.isReplay = false := by
  cases m <;> first | rfl | cases h

/--
A property of the moves made from a book set on. The moves that stand by themselves have it, and so
does a poll beside the applications that it calls for.
-/
structure Composable (P : List Move → BookSet → Prop) : Prop where
  nil {s : BookSet} : P [] s
  append {s : BookSet} {ms later : List Move} :
    P ms s → P later (ms.foldl Move.run s) → P (ms ++ later) s
  aside {s : BookSet} {m : Move} : m.isApart = true → P [m] s
  failed {s : BookSet} {e : SyncError} : s.poll.1 = .error e → P [.polled] s
  taken {s : BookSet} {taken : List Located} :
    s.poll.1 = .ok taken → P (.polled :: taken.map .applied) s

/-- Joins have it, too. -/
structure JoinComposable (P : List Move → BookSet → Prop) : Prop extends Composable P where
  join {s : BookSet} {target : Nat} : P (s.joinMoves target) s

/-- The trials of snapshots have it, too. -/
structure TrialComposable (P : List Move → BookSet → Prop) : Prop extends Composable P where
  tried {s : BookSet} {target : Nat} {a : Attempt} {located : Located} :
    P (s.trySnapshotMoves target a located) s
  stalled {s : BookSet} : s.poll.2.watch.arbiter.isStalled = true → P [.polled] s

variable (set : BookSet) {P : List Move → BookSet → Prop}

namespace Composable

theorem asides (h : Composable P) {ms : List Move} (hms : ∀ m ∈ ms, m.isApart = true) :
    P ms set := by
  induction ms generalizing set with
  | nil => exact h.nil
  | cons m ms ih =>
    obtain ⟨hm, hms⟩ := List.forall_mem_cons.1 hms
    exact h.append (h.aside hm) (ih (m.run set) hms)

theorem polled (h : Composable P) {ms : List Move} {taken : List Located}
    (hpoll : set.poll.1 = .ok taken) (hms : P ms (taken.foldl applySteady set.poll.2)) :
    P (.polled :: (taken.map .applied ++ ms)) set := by
  rw [← List.cons_append]
  refine h.append (h.taken hpoll) ?_
  rwa [List.foldl_cons, foldl_applied]

end Composable

/-! ## Joins from trials -/

namespace TrialComposable

theorem pollJoin (h : TrialComposable P) (target : Nat) (a : Attempt) :
    P (set.pollJoinMoves target a) set := by
  have hpolled := @h.polled set
  have hstalled := @h.stalled set
  have hfailed := @h.failed set
  unfold pollJoinMoves
  rcases hset : set.poll with ⟨result, polled⟩
  rw [hset] at hpolled hstalled hfailed
  cases result with
  | error e => exact hfailed rfl
  | ok taken =>
    dsimp only
    split
    · next hstall => exact hstalled hstall
    · refine hpolled rfl ?_
      rw [← List.singleton_append]
      refine h.append (h.aside rfl) ?_
      split
      · next located snapshots hlook =>
        simp only [List.foldl_cons, List.foldl_nil, Move.run, hlook]
        exact h.tried
      · exact h.nil

theorem joinWithin (h : TrialComposable P) (target polls : Nat) (a : Attempt) :
    P (joinWithinMoves target polls a set) set := by
  induction polls generalizing a set with
  | zero => exact h.aside rfl
  | succ polls ih =>
    rw [joinWithinMoves]
    refine h.append (h.pollJoin set target a) ?_
    rw [foldl_pollJoinMoves]
    rcases set.pollJoin target a with ⟨step, polled⟩
    cases step with
    | wait a => exact ih polled a
    | failed e => exact h.aside rfl
    | joined => exact h.asides polled (by simp [Move.isApart])
    | giveUp =>
      refine h.append (h.asides polled (by simp [Move.isApart])) ?_
      rw [foldl_retryMoves]
      rcases (polled.closeSnapshots.count (·.countJoinRetry)).resetArbiter.beginJoin target
        with ⟨result, begun⟩
      cases result with
      | error e => exact h.aside rfl
      | ok _ => exact ih begun {}

theorem joins (h : TrialComposable P) : JoinComposable P where
  toComposable := h.toComposable
  join {s target} := by
    refine h.append (h.asides s (by simp [Move.isApart])) ?_
    rw [foldl_beginMoves]
    rcases s.beginJoin target with ⟨result, begun⟩
    cases result with
    | error e => exact h.aside rfl
    | ok _ => exact h.joinWithin begun target _ {}

end TrialComposable

/-! ## Runs from joins -/

namespace JoinComposable

theorem rejoinWithin (h : JoinComposable P) (joins : Nat) :
    P (rejoinWithinMoves joins set) set := by
  induction joins generalizing set with
  | zero =>
    unfold rejoinWithinMoves
    cases set.firstMissing? with
    | none => exact h.aside rfl
    | some target => exact h.nil
  | succ joins ih =>
    unfold rejoinWithinMoves
    cases set.firstMissing? with
    | none => exact h.aside rfl
    | some target =>
      refine h.append h.join ?_
      rw [foldl_joinMoves]
      rcases set.join target with ⟨result, joined⟩
      cases result with
      | error e => exact h.nil
      | ok _ => exact ih joined

theorem rejoin (h : JoinComposable P) : P set.rejoinMoves set :=
  h.rejoinWithin set (set.supply + 1)

theorem recover (h : JoinComposable P) : P set.recoverMoves set :=
  h.append (h.asides set (by simp [Move.isApart])) (h.rejoin set.dropAll)

theorem settle (h : JoinComposable P) : P set.settleMoves set := by
  unfold settleMoves
  split
  · split
    · exact h.recover set
    · exact h.nil
  · split
    · split
      · exact h.rejoin set
      · exact h.nil
    · exact h.nil

/-- An update wipes off all marks, and the rest of it is made of parts. -/
theorem update (h : JoinComposable P) :
    ∃ rest, set.updateMoves = .wiped :: rest ∧ P rest set.wiped := by
  refine ⟨_, rfl, ?_⟩
  have hpolled := @h.polled set.wiped
  have hfailed := @h.failed set.wiped
  rcases hpoll : set.wiped.poll with ⟨result, polled⟩
  rw [hpoll] at hpolled hfailed
  cases result with
  | error e => exact hfailed rfl
  | ok taken => exact hpolled rfl (h.settle _)

theorem call (h : JoinComposable P) {c : Call} (hc : c ≠ .update) : P (c.moves set) set := by
  cases c with
  | openAll =>
    unfold Call.moves
    rcases set.openIncrements with ⟨result, opened⟩
    cases result <;> exact h.asides set (by simp [Move.isApart])
  | closeAll => exact h.asides set (by simp [Call.moves, Move.isApart])
  | join target => exact h.join
  | subscribe securityId =>
    simp only [Call.moves]
    cases set.books.byId? securityId with
    | none => exact h.nil
    | some target =>
      refine h.append h.join ?_
      rcases set.join target with ⟨result, joined⟩
      cases result with
      | error e => exact h.nil
      | ok _ => exact h.aside rfl
  | unsubscribe securityId =>
    simp only [Call.moves]
    cases set.books.byId? securityId with
    | none => exact h.nil
    | some target => exact h.asides set (by simp [Move.isApart])
  | recover => exact h.recover set
  | update => exact (hc rfl).elim

theorem moves (h : JoinComposable P) {calls : List Call} (hcalls : .update ∉ calls) :
    P (moves calls set) set := by
  induction calls generalizing set with
  | nil => exact h.nil
  | cons c calls ih =>
    rw [List.mem_cons, not_or] at hcalls
    refine h.append (h.call set (Ne.symm hcalls.1)) ?_
    rw [foldl_callMoves]
    exact ih (c.run set) hcalls.2

/-- A run with updates is made of the parts, too, if it may wipe off the marks. -/
theorem moves_of_wiped (h : JoinComposable P) (hwiped : ∀ s, P [.wiped] s) (calls : List Call) :
    P (BookSet.moves calls set) set := by
  induction calls generalizing set with
  | nil => exact h.nil
  | cons c calls ih =>
    refine h.append ?_ (by rw [foldl_callMoves]; exact ih (c.run set))
    by_cases hc : c = .update
    · subst hc
      obtain ⟨rest, hmoves, hrest⟩ := h.update set
      rw [Call.moves, hmoves, ← List.singleton_append]
      exact h.append (hwiped set) hrest
    · exact h.call set hc

end JoinComposable

end BookSet

end MarketFeed
