import MarketFeed.Proofs.Arbiter.Stalls
import MarketFeed.Proofs.BookSet.Join
import MarketFeed.Proofs.BookSet.Skips

/-!
# Every increment taken is applied

A join that finds the feeds stalled turns away from what it has just polled. Nothing is lost by
that: a feed that brings a number that is taken stands at it, and so the feeds do not stall in the
same poll (`Seated.accepted_of_isStalled`). Every other poll is followed at once by the applications
of what it has taken.
-/

namespace MarketFeed

/-! ## A stall and an acceptance in one poll -/

/-- Some feed stands just at the number taken last. -/
def Arbiter.IsCurrent (a : Arbiter) : Prop := ∃ last, a.last = some last ∧ some last ∈ a.received

theorem Arbiter.IsCurrent.not_isStalled {a : Arbiter} (h : a.IsCurrent) : a.isStalled = false := by
  obtain ⟨last, hlast, hmem⟩ := h
  rw [← Bool.not_eq_true, isStalled_iff]
  rintro ⟨last', hlast', -, hall⟩
  obtain ⟨received, hreceived, hlt⟩ := hall _ hmem
  obtain rfl := Option.some.inj hreceived
  obtain rfl := Option.some.inj (hlast.symm.trans hlast')
  exact UInt64.lt_irrefl last hlt

section

variable (layouts : Layouts) (w : Watch) (i : Nat) (m : Message)

theorem judge_observes :
    (w.takenOf layouts i m = [] ∧ (w.judge layouts i m).2 = w) ∨
      ∃ number, (w.judge layouts i m).2.arbiter = (w.arbiter.observe i number).2 ∧
        (w.takenOf layouts i m ≠ [] → (w.arbiter.observe i number).1.isAccepted = true) := by
  unfold Watch.takenOf Watch.judge
  cases layouts.place? m with
  | none => exact .inl ⟨rfl, rfl⟩
  | some located =>
    dsimp only
    cases located.layout.seqNumOf m with
    | none => exact .inl ⟨rfl, rfl⟩
    | some number =>
      refine .inr ⟨number, ?_, fun htaken => ?_⟩
      · dsimp only
        split <;> rfl
      · by_contra hrejected
        exact htaken (if_neg hrejected)

theorem received_judge :
    ∃ r, (w.judge layouts i m).2.arbiter.received = w.arbiter.received.set i r ∨
      (w.judge layouts i m).2.arbiter.received = w.arbiter.received := by
  rcases judge_observes layouts w i m with ⟨-, hsame⟩ | ⟨number, hobserve, -⟩
  · exact ⟨none, .inr (by rw [hsame])⟩
  · exact ⟨some number, .inl (by rw [hobserve, Arbiter.received_observe])⟩

theorem length_received_judge :
    (w.judge layouts i m).2.arbiter.received.length = w.arbiter.received.length := by
  obtain ⟨r, h | h⟩ := received_judge layouts w i m <;> simp [h]

theorem getElem?_received_judge {k : Nat} (hk : k < i) :
    (w.judge layouts i m).2.arbiter.received[k]? = w.arbiter.received[k]? := by
  obtain ⟨r, h | h⟩ := received_judge layouts w i m
  · rw [h, List.getElem?_set_ne (Nat.ne_of_gt hk)]
  · rw [h]

end

/-- A poll from feed `i` on lets the feeds before it stand where they are. -/
theorem received_pollIncrements (layouts : Layouts) (i : Nat) (feeds : List Feed) (w : Watch) :
    (pollIncrements layouts i feeds w).watch.arbiter.received.length =
        w.arbiter.received.length ∧
      ∀ k < i, (pollIncrements layouts i feeds w).watch.arbiter.received[k]? =
        w.arbiter.received[k]? := by
  induction feeds generalizing i w with
  | nil => exact ⟨rfl, fun _ _ => rfl⟩
  | cons f feeds ih =>
    have skip := ih (i + 1) w
    simp only [pollIncrements]
    split
    · exact ⟨skip.1, fun k hk => skip.2 k (Nat.lt_succ_of_lt hk)⟩
    · rcases f.receive with ⟨result, f'⟩
      rcases result with e | m
      · exact ⟨rfl, fun _ _ => rfl⟩
      · cases m with
        | none => exact ⟨skip.1, fun k hk => skip.2 k (Nat.lt_succ_of_lt hk)⟩
        | some m =>
          obtain ⟨hlength, hrest⟩ := ih (i + 1) (w.judge layouts i m).2
          exact ⟨hlength.trans (length_received_judge layouts w i m), fun k hk =>
            (hrest k (Nat.lt_succ_of_lt hk)).trans (getElem?_received_judge layouts w i m hk)⟩

/-- The feed that brings the number taken last stands at it when the poll is over. -/
theorem isCurrent_of_takenBy (layouts : Layouts) (i : Nat) (feeds : List Feed) (w : Watch)
    (hroom : i + feeds.length ≤ w.arbiter.received.length) (h : takenBy layouts i feeds w ≠ []) :
    (pollIncrements layouts i feeds w).watch.arbiter.IsCurrent := by
  induction feeds generalizing i w with
  | nil => exact (h rfl).elim
  | cons f feeds ih =>
    rw [List.length_cons] at hroom
    simp only [takenBy] at h
    simp only [pollIncrements]
    split at h
    · next hskip =>
      rw [if_pos hskip]
      exact ih (i + 1) w (by omega) h
    · next hskip =>
      rw [if_neg hskip]
      rcases hreceive : f.receive with ⟨result, f'⟩
      simp only [hreceive] at h
      rcases result with e | m
      · exact (h rfl).elim
      · cases m with
        | none => exact ih (i + 1) w (by omega) h
        | some m =>
          dsimp only at h ⊢
          by_cases hlater : takenBy layouts (i + 1) feeds (w.judge layouts i m).2 = []
          · -- Nothing behind this feed is taken, so it stands where the arbiter does.
            rw [hlater, List.append_nil] at h
            have hlast := (chained_takenBy layouts (i + 1) feeds (w.judge layouts i m).2).2
            rw [hlater] at hlast
            have hstand := (received_pollIncrements layouts (i + 1) feeds
              (w.judge layouts i m).2).2 i (Nat.lt_succ_self i)
            rcases judge_observes layouts w i m with ⟨hnone, -⟩ | ⟨number, hobserve, htaken⟩
            · exact (h hnone).elim
            · rw [hobserve, Arbiter.received_observe, List.getElem?_set_self (by omega)] at hstand
              refine ⟨number, ?_, List.mem_of_getElem? hstand⟩
              rw [← hlast]
              exact hobserve ▸ Arbiter.last_observe_of_accepted (htaken h)
          · refine ih (i + 1) _ ?_ hlater
            rw [length_received_judge]
            omega

theorem length_pollIncrements (layouts : Layouts) (i : Nat) (feeds : List Feed) (w : Watch) :
    (pollIncrements layouts i feeds w).feeds.length = feeds.length := by
  induction feeds generalizing i w with
  | nil => rfl
  | cons f feeds ih =>
    simp only [pollIncrements]
    split
    · exact congrArg (· + 1) (ih (i + 1) w)
    · rcases f.receive with ⟨result, f'⟩
      rcases result with e | m
      · rfl
      · cases m with
        | none => exact congrArg (· + 1) (ih (i + 1) w)
        | some m => exact congrArg (· + 1) (ih (i + 1) _)

namespace BookSet

theorem length_openFeeds (network : Network) (feeds : List Feed) :
    (openFeeds network feeds).2.length = feeds.length := by
  induction feeds with
  | nil => rfl
  | cons f feeds ih =>
    rw [openFeeds]
    rcases f.openOn network with ⟨result, f'⟩
    cases result with
    | error e => rfl
    | ok _ => exact congrArg (· + 1) ih

variable {set : BookSet}

/-- The arbiter has a place for every increment feed. -/
def Seated (set : BookSet) : Prop := set.watch.arbiter.received.length = set.increments.length

theorem seated_create {network : Network} {config : Config} {templates : TemplateSet}
    (h : create network config templates = .ok set) : set.Seated := by
  obtain ⟨layouts, rfl⟩ := create_eq h
  exact List.length_replicate

theorem Seated.run (h : set.Seated) (m : Move) : (m.run set).Seated := by
  cases m with
  | opened => exact h.trans (length_openFeeds set.network set.increments).symm
  | closed => exact h.trans (List.length_map _).symm
  | polled =>
    exact (received_pollIncrements _ 0 _ _).1.trans
      (h.trans (length_pollIncrements _ 0 _ _).symm)
  | restarted => exact (List.length_map _).trans h
  | _ => exact h

/-- If the feeds stall, then the same poll has taken nothing. -/
theorem Seated.accepted_of_isStalled (h : set.Seated)
    (hstalled : set.poll.2.watch.arbiter.isStalled = true) : set.accepted = [] := by
  by_contra htaken
  have hcurrent := isCurrent_of_takenBy set.layouts 0 set.increments set.watch
    (by simpa using Nat.le_of_eq h.symm) htaken
  cases hcurrent.not_isStalled.symm.trans hstalled

/-! ## Deliveries -/

/-- The increments that are applied to all active books, in turn. -/
def appliedIn (run : List (BookSet × Move)) : List Located :=
  run.filterMap fun
    | (_, .applied located) => some located
    | _ => none

/-- The increments that are taken, in turn. -/
def acceptedIn (run : List (BookSet × Move)) : List Located :=
  (pollsIn run).flatMap fun set => refreshes set.accepted

/-- Every poll is followed at once by the applications of what it has taken, those `due` first. -/
def Delivers : List Located → List (BookSet × Move) → Prop
  | due, [] => due = []
  | due, (set, m) :: run =>
    match m with
    | .polled => due = [] ∧ Delivers (refreshes set.accepted) run
    | .applied located => ∃ later, due = located :: later ∧ Delivers later run
    | _ => due = [] ∧ Delivers [] run

section

variable {run later : List (BookSet × Move)} {due : List Located}

theorem delivers_cons_of_isAside {m : Move} (h : m.isAside = true) :
    Delivers due ((set, m) :: run) ↔ due = [] ∧ Delivers [] run := by
  cases m <;> first | rfl | cases h

theorem delivers_of_isAside {ms : List Move} (h : ∀ m ∈ ms, m.isAside = true) (set : BookSet) :
    Delivers [] (journal ms set) := by
  induction ms generalizing set with
  | nil => rfl
  | cons m ms ih =>
    exact (delivers_cons_of_isAside (h m (by simp))).2
      ⟨rfl, ih (fun m' hm => h m' (List.mem_cons_of_mem m hm)) _⟩

theorem Delivers.append (h : Delivers due run) (h' : Delivers [] later) :
    Delivers due (run ++ later) := by
  induction run generalizing due with
  | nil =>
    obtain rfl : due = [] := h
    exact h'
  | cons x run ih =>
    obtain ⟨set, m⟩ := x
    cases m with
    | polled => exact ⟨h.1, ih h.2⟩
    | applied located =>
      obtain ⟨rest, rfl, hrest⟩ := h
      exact ⟨rest, rfl, ih hrest⟩
    | _ => exact ⟨h.1, ih h.2⟩

/-- At any moment, what has been taken is what has been applied and what is due now. -/
theorem Delivers.split {before after : List (BookSet × Move)} (h : Delivers due (before ++ after)) :
    ∃ due', due ++ acceptedIn before = appliedIn before ++ due' ∧ Delivers due' after := by
  induction before generalizing due with
  | nil => exact ⟨due, List.append_nil due, h⟩
  | cons x before ih =>
    obtain ⟨set, m⟩ := x
    cases m with
    | polled =>
      obtain ⟨rfl, hrest⟩ := h
      exact ih hrest
    | applied located =>
      obtain ⟨rest, rfl, hrest⟩ := h
      obtain ⟨due', heq, hafter⟩ := ih hrest
      exact ⟨due', congrArg (located :: ·) heq, hafter⟩
    | _ =>
      obtain ⟨rfl, hrest⟩ := h
      exact ih hrest

end

/-! ## Functions that deliver -/

/-- The moves deliver what their polls take, unless an increment feed fails. -/
def Delivering (ms : List Move) (set : BookSet) : Prop :=
  set.Seated → (∀ s ∈ pollsIn (journal ms set), s.poll.1.isOk = true) →
    Delivers [] (journal ms set)

namespace Delivering

variable {ms later : List Move}

theorem append (h : Delivering ms set) (h' : Delivering later (ms.foldl Move.run set)) :
    Delivering (ms ++ later) set := by
  intro hseated hreads
  rw [journal_append] at hreads ⊢
  rw [pollsIn_append] at hreads
  refine (h hseated fun s hs => hreads s (List.mem_append_left _ hs)).append ?_
  exact h' (foldl_induction (fun _ m h => h.run m) hseated ms) fun s hs =>
    hreads s (List.mem_append_right _ hs)

theorem failed {e : SyncError} (hpoll : set.poll.1 = .error e) : Delivering [.polled] set := by
  intro _ hreads
  have := hreads set List.mem_cons_self
  rw [hpoll] at this
  cases this

theorem stalled (hstalled : set.poll.2.watch.arbiter.isStalled = true) :
    Delivering [.polled] set := by
  intro hseated _
  refine ⟨rfl, ?_⟩
  rw [hseated.accepted_of_isStalled hstalled]
  rfl

theorem delivers_applied (taken : List Located) (set : BookSet) :
    Delivers taken (journal (taken.map .applied) set) := by
  induction taken generalizing set with
  | nil => rfl
  | cons located taken ih => exact ⟨taken, rfl, ih _⟩

theorem taken {taken : List Located} (hpoll : set.poll.1 = .ok taken) :
    Delivering (.polled :: taken.map .applied) set := by
  refine fun _ _ => ⟨rfl, ?_⟩
  rw [accepted, ← set.poll_taken hpoll]
  exact delivers_applied taken _

theorem composable : TrialComposable Delivering where
  nil _ _ := rfl
  append := append
  aside {s m} hm _ _ := delivers_of_isAside (by simpa using Move.isAside_of_isApart hm) s
  tried _ _ := delivers_of_isAside
    (fun m hm => Move.isAside_of_isTrial (isTrial_of_mem_trySnapshotMoves _ m hm)) _
  failed := failed
  stalled := stalled
  taken := taken

end Delivering

variable (set : BookSet)

theorem delivering_moves (calls : List Call) : Delivering (moves calls set) set :=
  Delivering.composable.joins.moves_of_wiped set (fun _ _ _ => ⟨rfl, rfl⟩) calls

/--
However the books of a new set are joined, recovered and updated: as long as no increment feed
fails, the increments applied to the active books are those taken, each once and in the order in
which they were taken. At no moment has one been applied that was not taken before, and a poll after
which the feeds stall has taken no number. The moves of the journal are all that the calls do.
-/
theorem accepted_applied {network : Network} {config : Config} {templates : TemplateSet}
    (h : create network config templates = .ok set) (calls : List Call)
    (hreads : ∀ s ∈ pollsIn (journal (moves calls set) set), s.poll.1.isOk = true) :
    (moves calls set).foldl Move.run set = calls.foldl Call.run set ∧
    appliedIn (journal (moves calls set) set) = acceptedIn (journal (moves calls set) set) ∧
    (∀ before after, journal (moves calls set) set = before ++ after →
      appliedIn before <+: acceptedIn before) ∧
    ∀ s ∈ pollsIn (journal (moves calls set) set),
      s.poll.2.watch.arbiter.isStalled = true → s.accepted = [] := by
  have hseated := seated_create h
  have hdelivers := set.delivering_moves calls hseated hreads
  refine ⟨set.foldl_moves calls, ?_, fun before after heq => ?_, fun s hs hstalled => ?_⟩
  · -- Split behind the last move, where nothing is due any more.
    rw [← List.append_nil (journal _ _)] at hdelivers
    obtain ⟨due, heq, rfl⟩ := hdelivers.split
    simpa using heq.symm
  · rw [heq] at hdelivers
    obtain ⟨due, hbefore, -⟩ := hdelivers.split
    exact ⟨due, hbefore.symm⟩
  · have hs := journal_induction (fun _ m h => h.run m) hseated (mem_pollsIn.1 hs)
    exact hs.accepted_of_isStalled hstalled

/-- The feeds stall at 5 of the increments 1, 5 and 6, and the join of B turns away from it. -/
theorem accepted_applied_pair :
    let run := journal (moves pairCalls pairSet) pairSet
    create pairNetwork pairConfig market = .ok pairSet ∧
      (∀ s ∈ pollsIn run, s.poll.1.isOk = true) ∧
      (∃ s ∈ pollsIn run, s.poll.2.watch.arbiter.isStalled = true ∧ s.accepted = []) ∧
      (appliedIn run).map (fun l => l.layout.seqNumOf l.message) = [some 1, some 6] ∧
      appliedIn run = acceptedIn run := by
  intro run
  have hset : create pairNetwork pairConfig market = .ok pairSet := rfl
  have hreads : ∀ s ∈ pollsIn run, s.poll.1.isOk = true := by decide +kernel
  obtain ⟨-, hsame, -, hstall⟩ := accepted_applied pairSet hset pairCalls hreads
  have hstalled : ∃ s ∈ pollsIn run, s.poll.2.watch.arbiter.isStalled = true := by decide +kernel
  obtain ⟨s, hs, hs'⟩ := hstalled
  exact ⟨hset, hreads, ⟨s, hs, hs', hstall s hs hs'⟩, by decide +kernel, hsame⟩

end BookSet

end MarketFeed
