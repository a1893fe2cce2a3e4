import MarketFeed.Proofs.BookSet.Activity
import MarketFeed.Proofs.BookSet.Join

/-!
# Which subscribed books an update vouches for

An update that rejoins books vouches for every subscribed one. An update that has nothing to mend
looks at the marks only, and so vouches for all but the books that were dropped without one: by a
join or a recovery that failed.
-/

namespace MarketFeed

/-- The tick of an update that found nothing to mend. -/
def Tick.IsQuiet : Tick → Prop
  | .idle | .applied _ => True
  | .stalled | .desynced _ | .recovered => False

namespace BookSet

variable (set : BookSet)

/-! ## Joins -/

/-- The other books are accounted for, and the target keeps its subscription and its mark. -/
structure Leads (target : Nat) (set set' : BookSet) : Prop where
  others : ∀ i, i ≠ target → Accounts i set set'
  subscribed : set'.books.isSubscribed target = set.books.isSubscribed target
  marked : target ∈ set.desynced → target ∈ set'.desynced

/-- What a join comes to: the target is active, or it has kept its mark. -/
structure Joins (target : Nat) (set : BookSet) (result : Except SyncError Unit)
    (set' : BookSet) : Prop where
  others : ∀ i, i ≠ target → Accounts i set set'
  subscribed : set'.books.isSubscribed target = set.books.isSubscribed target
  joined : result = .ok () → set'.books.isActive target = true
  marked : result ≠ .ok () → target ∈ set.desynced → target ∈ set'.desynced

section

variable {target : Nat} {set set' set'' : BookSet}

theorem Leads.of_accounts (h : ∀ i, Accounts i set set') : Leads target set set' :=
  ⟨fun i _ => h i, (h target).subscribed, (h target).marked⟩

theorem Leads.trans (h : Leads target set set') (h' : Leads target set' set'') :
    Leads target set set'' :=
  ⟨fun i hi => (h.others i hi).trans (h'.others i hi), h'.subscribed.trans h.subscribed,
    fun hi => h'.marked (h.marked hi)⟩

theorem Leads.fails (h : Leads target set set') {e : SyncError} :
    Joins target set (.error e) set' :=
  ⟨h.others, h.subscribed, nofun, fun _ => h.marked⟩

theorem Leads.joins (h : Leads target set set') {result : Except SyncError Unit}
    (h' : Joins target set' result set'') : Joins target set result set'' :=
  ⟨fun i hi => (h.others i hi).trans (h'.others i hi), h'.subscribed.trans h.subscribed, h'.joined,
    fun hr hi => h'.marked hr (h.marked hi)⟩

theorem leads_closeSnapshots (target : Nat) (set : BookSet) :
    Leads target set set.closeSnapshots := .of_accounts fun _ => ⟨rfl, id, .inl⟩

/-- A book that is dropped without a mark is the target itself. -/
theorem leads_deactivate (h : set'.books = set.books.deactivate target)
    (hdesynced : set'.desynced = set.desynced) : Leads target set set' := by
  refine ⟨fun i hi => ⟨?_, ?_, fun hactive => ?_⟩, ?_, ?_⟩
  · rw [h, Books.isSubscribed_deactivate]
  · rw [hdesynced]
    exact id
  · rw [h]
    exact .inl ((Books.isActive_deactivate _ _ _).2 ⟨hactive, hi⟩)
  · rw [h, Books.isSubscribed_deactivate]
  · rw [hdesynced]
    exact id

end

theorem joins_joinWithin (target polls : Nat) (a : Attempt) :
    Joins target set (joinWithin target polls a set).1 (joinWithin target polls a set).2 := by
  induction polls generalizing a set with
  | zero =>
    exact (leads_closeSnapshots target set).fails
  | succ polls ih =>
    have hpoll := set.attempts_pollJoin target a
    rw [joinWithin]
    rcases hstep : set.pollJoin target a with ⟨step, polled⟩
    rw [hstep] at hpoll
    have hleads : Leads target set polled := .of_accounts hpoll.accounts
    cases step with
    | wait a => exact hleads.joins (ih polled a)
    | failed e => exact (hleads.trans (leads_closeSnapshots target polled)).fails
    | joined =>
      refine ⟨fun i hi => ⟨(hpoll.accounts i).subscribed, fun hmark => ?_, fun hactive => ?_⟩,
        hleads.subscribed, fun _ => hpoll.joined rfl, fun h => (h rfl).elim⟩
      · exact List.mem_filter.2 ⟨(hpoll.accounts i).marked hmark, by simpa using hi⟩
      · refine ((hpoll.accounts i).lost hactive).imp_right fun hmark => ?_
        exact List.mem_filter.2 ⟨hmark, by simpa using hi⟩
    | giveUp =>
      dsimp only
      rcases hbegin : (polled.closeSnapshots.count (·.countJoinRetry)).resetArbiter.beginJoin target
        with ⟨result, begun⟩
      have hbegun : Leads target polled begun := by
        obtain rfl := congrArg Prod.snd hbegin
        exact leads_deactivate rfl rfl
      cases result with
      | error e =>
        exact ((hleads.trans hbegun).trans (leads_closeSnapshots target begun)).fails
      | ok _ => exact (hleads.trans hbegun).joins (ih begun {})

theorem joins_join (target : Nat) :
    Joins target set (set.join target).1 (set.join target).2 := by
  unfold join
  rcases hbegin : set.beginJoin target with ⟨result, begun⟩
  have hbegun : Leads target set begun := by
    obtain rfl := congrArg Prod.snd hbegin
    exact leads_deactivate rfl rfl
  cases result with
  | error e => exact (hbegun.trans (leads_closeSnapshots target begun)).fails
  | ok _ => exact hbegun.joins (joins_joinWithin begun target _ {})

/-! ## Books that the marks tell of -/

/-- The book at a position is active, marked, or not to be kept up. -/
def Told (i : Nat) : Prop :=
  set.books.isSubscribed i = true → set.books.isActive i = true ∨ i ∈ set.desynced

/-- Every book that is to be kept up is. -/
def AllLive : Prop := ∀ i, set.books.isSubscribed i = true → set.books.isActive i = true

section

variable {set}

theorem Told.of_accounts {i : Nat} {set' : BookSet} (h : set.Told i) (ha : Accounts i set set') :
    set'.Told i := by
  intro hsubscribed
  rw [ha.subscribed] at hsubscribed
  rcases h hsubscribed with hactive | hmark
  · exact ha.lost hactive
  · exact .inr (ha.marked hmark)

/-- A join that begins with an inactive book leaves none behind. -/
theorem Told.join {i target : Nat} (h : set.Told i) (hidle : set.books.isActive target = false) :
    (set.join target).2.Told i := by
  have hjoins := set.joins_join target
  by_cases hi : i = target
  · subst hi
    intro hsubscribed
    rw [hjoins.subscribed] at hsubscribed
    by_cases hresult : (set.join i).1 = .ok ()
    · exact .inl (hjoins.joined hresult)
    · rcases h hsubscribed with hactive | hmark
      · cases hidle.symm.trans hactive
      · exact .inr (hjoins.marked hresult hmark)
  · exact h.of_accounts (hjoins.others i hi)

theorem allLive_of_firstMissing?_eq_none (h : set.firstMissing? = none) : set.AllLive := by
  intro i hsubscribed
  rw [firstMissing?, List.findIdx?_eq_none_iff] at h
  rw [Books.isSubscribed, Option.any_eq_true] at hsubscribed
  obtain ⟨b, hb, hsubscribed⟩ := hsubscribed
  have := h b (List.mem_of_getElem? hb)
  rw [Books.isActive, hb]
  simpa [hsubscribed] using this

theorem isActive_of_firstMissing?_eq_some {target : Nat} (h : set.firstMissing? = some target) :
    set.books.isActive target = false := by
  rw [firstMissing?, List.findIdx?_eq_some_iff_getElem] at h
  obtain ⟨hlt, hmissing, -⟩ := h
  rw [Bool.and_eq_true, Bool.not_eq_true'] at hmissing
  rw [Books.isActive, List.getElem?_eq_getElem hlt]
  exact hmissing.2

end

/-- Rejoining leaves no book behind, however it ends, and every subscribed one active if it ends
well. -/
theorem rejoinWithin_told (joins : Nat) :
    (∀ i, set.Told i → (rejoinWithin joins set).2.Told i) ∧
      ((rejoinWithin joins set).1 = .ok () → (rejoinWithin joins set).2.AllLive) := by
  induction joins generalizing set with
  | zero =>
    unfold rejoinWithin
    split
    · next hnone =>
      have hlive := allLive_of_firstMissing?_eq_none hnone
      exact ⟨fun i _ hsubscribed => .inl (hlive i hsubscribed), fun _ => hlive⟩
    · exact ⟨fun i h => h, fun h => nomatch h⟩
  | succ joins ih =>
    unfold rejoinWithin
    split
    · next hnone =>
      have hlive := allLive_of_firstMissing?_eq_none hnone
      exact ⟨fun i _ hsubscribed => .inl (hlive i hsubscribed), fun _ => hlive⟩
    · next target hsome =>
      have hidle := isActive_of_firstMissing?_eq_some hsome
      have hjoin (i : Nat) (h : set.Told i) := h.join hidle
      dsimp only
      rcases hset : set.join target with ⟨result, joined⟩
      rw [hset] at hjoin
      cases result with
      | error e => exact ⟨hjoin, fun h => nomatch h⟩
      | ok _ => exact ⟨fun i h => (ih joined).1 i (hjoin i h), (ih joined).2⟩

theorem rejoin_told {i : Nat} (h : set.Told i) : set.rejoin.2.Told i :=
  (set.rejoinWithin_told _).1 i h

theorem allLive_of_rejoin (h : set.rejoin.1 = .ok ()) : set.rejoin.2.AllLive :=
  (set.rejoinWithin_told _).2 h

theorem allLive_of_recover (h : set.recover.1 = .ok ()) : set.recover.2.AllLive :=
  set.dropAll.allLive_of_rejoin h

/-! ## Books that are dropped without a mark -/

/-- The positions of the active books. -/
def activeBooks : List Nat := (List.range set.books.list.length).filter set.books.isActive

theorem mem_activeBooks {i : Nat} (h : set.books.isActive i = true) : i ∈ set.activeBooks := by
  refine List.mem_filter.2 ⟨List.mem_range.2 ?_, h⟩
  rw [Books.isActive, Option.any_eq_true] at h
  obtain ⟨b, hb, -⟩ := h
  exact (List.getElem?_eq_some_iff.1 hb).1

/-- What a join that fails drops: its own book. -/
def joinDrops (target : Nat) : List Nat :=
  match set.join target with
  | (.ok (), _) => []
  | (.error _, _) => if set.books.isActive target then [target] else []

/-- What a recovery that fails drops: all books. -/
def recoverDrops : List Nat :=
  match set.recover with
  | (.ok (), _) => []
  | (.error _, _) => set.activeBooks

def settleDrops : List Nat :=
  if set.watch.arbiter.isStalled && set.policy.autoRecover then set.recoverDrops else []

def updateDrops : List Nat :=
  match { set with books := { set.books with touched := [] } }.poll with
  | (.error _, _) => []
  | (.ok taken, set) => (taken.foldl applySteady set).settleDrops

/-- The books that the call itself takes out of service, and fails to bring back. -/
def Call.drops (set : BookSet) : Call → List Nat
  | .openAll | .closeAll | .unsubscribe _ => []
  | .join target => set.joinDrops target
  | .subscribe securityId => ((set.books.byId? securityId).map set.joinDrops).getD []
  | .recover => set.recoverDrops
  | .update => set.updateDrops

/-- The book at a position is to be kept up and is not. -/
def isMissing (i : Nat) : Bool := set.books.isSubscribed i && !set.books.isActive i

/-- The books dropped on the way that have been missing ever since, to begin with `behind`. -/
def strandedFrom : List Call → BookSet → List Nat → List Nat
  | [], _, behind => behind
  | c :: calls, set, behind =>
    strandedFrom calls (c.run set) ((behind ++ c.drops set).filter (c.run set).isMissing)

/-- The books that a run has dropped and left. -/
def stranded (calls : List Call) (set : BookSet) : List Nat := strandedFrom calls set []

section

variable {set} {i : Nat}

theorem Told.join_or_drops (h : set.Told i) (target : Nat) :
    (set.join target).2.Told i ∨ i ∈ set.joinDrops target := by
  have hjoins := set.joins_join target
  cases hidle : set.books.isActive target with
  | false => exact .inl (h.join hidle)
  | true =>
    by_cases hi : i = target
    · subst hi
      unfold joinDrops
      rcases hset : set.join i with ⟨result, joined⟩
      rw [hset] at hjoins
      cases result with
      | error e => exact .inr (by simp [hidle])
      | ok _ => exact .inl fun _ => .inl (hjoins.joined rfl)
    · exact .inl (h.of_accounts (hjoins.others i hi))

theorem Told.recover_or_drops (h : set.Told i) :
    set.recover.2.Told i ∨ i ∈ set.recoverDrops := by
  have hlive := set.allLive_of_recover
  unfold recoverDrops
  rw [recover_eq] at hlive ⊢
  cases hactive : set.books.isActive i with
  | false =>
    refine .inl (rejoin_told _ fun hsubscribed => .inr ?_)
    rw [isSubscribed_dropAll] at hsubscribed
    exact (h hsubscribed).resolve_left (by simp [hactive])
  | true =>
    rcases hset : set.dropAll.rejoin with ⟨result, rejoined⟩
    rw [hset] at hlive
    cases result with
    | error e => exact .inr (mem_activeBooks set hactive)
    | ok _ => exact .inl fun hsubscribed => .inl (hlive rfl i hsubscribed)

theorem Told.settle_or_drops (h : set.Told i) (applied : Nat) :
    (set.settle applied).2.Told i ∨ i ∈ set.settleDrops := by
  unfold settle settleDrops
  split
  · next hstalled =>
    rw [hstalled]
    split
    · next hauto =>
      rw [hauto]
      exact h.recover_or_drops
    · exact .inl h
  · split
    · split
      · exact .inl (set.rejoin_told h)
      · exact .inl h
    · exact .inl h

theorem Told.update_or_drops (h : set.Told i) : set.update.2.Told i ∨ i ∈ set.updateDrops := by
  have hpolled : ({ set with books := { set.books with touched := [] } } : BookSet).poll.2.Told i :=
    h
  unfold update updateDrops
  rcases hset : ({ set with books := { set.books with touched := [] } } : BookSet).poll
    with ⟨result, polled⟩
  rw [hset] at hpolled
  cases result with
  | error e => exact .inl hpolled
  | ok taken =>
    exact (hpolled.of_accounts (polled.accounts_foldl_applySteady taken i)).settle_or_drops _

end

theorem told_openAll {i : Nat} (h : set.Told i) : set.openAll.2.Told i := by
  have hopen : set.openIncrements.2.Told i := h
  unfold openAll
  rcases hset : set.openIncrements with ⟨result, opened⟩
  rw [hset] at hopen
  cases result <;> exact hopen

theorem told_subscribe {i : Nat} (h : set.Told i) (securityId : UInt64) :
    (set.subscribe securityId).2.Told i ∨ i ∈ Call.drops set (.subscribe securityId) := by
  simp only [Call.drops, subscribe]
  cases set.books.byId? securityId with
  | none => exact .inl h
  | some target =>
    have hjoin := h.join_or_drops target
    have hjoins := set.joins_join target
    simp only [Option.map_some, Option.getD_some]
    rcases hset : set.join target with ⟨result, joined⟩
    rw [hset] at hjoin hjoins
    cases result with
    | error e => exact hjoin
    | ok _ =>
      refine hjoin.imp_left fun hjoin hsubscribed => ?_
      dsimp only at hjoin hsubscribed ⊢
      rw [Books.isActive_modify _ target i (fun b => { b with isSubscribed := true }) fun _ _ => rfl]
      by_cases hi : target = i
      · subst hi
        exact .inl (hjoins.joined rfl)
      · rw [Books.isSubscribed_modify_ne _ hi] at hsubscribed
        exact hjoin hsubscribed

theorem told_unsubscribe {i : Nat} (h : set.Told i) (securityId : UInt64) :
    (set.unsubscribe securityId).2.Told i := by
  unfold unsubscribe
  cases set.books.byId? securityId with
  | none => exact h
  | some target =>
    intro hsubscribed
    dsimp only at hsubscribed ⊢
    by_cases hi : target = i
    · subst hi
      rw [Books.isSubscribed, Books.getElem?_modify, if_pos rfl] at hsubscribed
      cases hb : set.books.list[target]? <;> simp [hb] at hsubscribed
    · rw [Books.isSubscribed_modify_ne _ hi] at hsubscribed
      rw [Books.isActive_modify_ne _ hi]
      refine (h hsubscribed).imp_right fun hmark => ?_
      exact List.mem_filter.2 ⟨hmark, by simpa using Ne.symm hi⟩

/-- What was told of a book before a call still is, unless the call drops the book. -/
theorem told_call {i : Nat} (h : set.Told i) (c : Call) :
    (c.run set).Told i ∨ i ∈ c.drops set := by
  cases c with
  | openAll => exact .inl (set.told_openAll h)
  | closeAll => exact .inl h
  | join target => exact h.join_or_drops target
  | subscribe securityId => exact set.told_subscribe h securityId
  | unsubscribe securityId => exact .inl (set.told_unsubscribe h securityId)
  | recover => exact h.recover_or_drops
  | update => exact h.update_or_drops

/-! ## Runs -/

/-- Along a run every book is told of or stranded. -/
theorem told_run {i : Nat} {behind : List Nat} (h : set.Told i ∨ i ∈ behind) (calls : List Call) :
    (calls.foldl Call.run set).Told i ∨ i ∈ strandedFrom calls set behind := by
  induction calls generalizing set behind with
  | nil => exact h
  | cons c calls ih =>
    refine ih (c.run set) ?_
    by_cases hmissing : (c.run set).isMissing i = true
    · have hnext : (c.run set).Told i ∨ i ∈ behind ++ c.drops set := by
        rcases h with h | h
        · exact (set.told_call h c).imp_right (List.mem_append_right behind)
        · exact .inr (List.mem_append_left _ h)
      exact hnext.imp_right fun h => List.mem_filter.2 ⟨h, hmissing⟩
    · left
      intro hsubscribed
      left
      simpa [isMissing, hsubscribed] using hmissing

theorem told_create {network : Network} {config : Config} {templates : TemplateSet}
    (h : create network config templates = .ok set) (i : Nat) : set.Told i := by
  obtain ⟨layouts, rfl⟩ := create_eq h
  intro hsubscribed
  rw [Books.isSubscribed, Option.any_eq_true] at hsubscribed
  obtain ⟨b, hb, hsubscribed⟩ := hsubscribed
  obtain ⟨c, -, rfl⟩ := List.mem_map.1 (List.mem_of_getElem? hb)
  cases hsubscribed

theorem mem_desyncedBooks {i : Nat} (hsubscribed : set.books.isSubscribed i = true)
    (hmark : i ∈ set.desynced) : i ∈ set.desyncedBooks := by
  rw [Books.isSubscribed, Option.any_eq_true] at hsubscribed
  obtain ⟨b, hb, hsubscribed⟩ := hsubscribed
  refine List.mem_map.2 ⟨(b, i), List.mem_filter.2 ⟨?_, ?_⟩, rfl⟩
  · exact List.mem_zipIdx_iff_getElem?.2 hb
  · simpa [hsubscribed] using hmark

/-- What a tick says of the books that it leaves. -/
theorem settle_vouches {tick : Tick} {applied : Nat} {set' : BookSet}
    (h : set.settle applied = (.ok tick, set')) :
    (tick = .recovered → set'.AllLive) ∧
      (tick.IsQuiet → set' = set ∧ set.desyncedBooks = []) := by
  have recovers {result : Except SyncError Unit} {next : BookSet}
      (hlive : result = .ok () → next.AllLive)
      (heq : (result.map fun _ => Tick.recovered, next) = (.ok tick, set')) :
      (tick = .recovered → set'.AllLive) ∧
        (tick.IsQuiet → set' = set ∧ set.desyncedBooks = []) := by
    obtain ⟨hresult, rfl⟩ := Prod.mk.inj heq
    cases result with
    | error e => cases hresult
    | ok _ =>
      obtain rfl := Except.ok.inj hresult
      exact ⟨fun _ => hlive rfl, False.elim⟩
  unfold settle at h
  split at h
  · split at h
    · exact recovers set.allLive_of_recover h
    · obtain ⟨rfl⟩ := Except.ok.inj (Prod.mk.inj h).1
      exact ⟨nofun, False.elim⟩
  · split at h
    · split at h
      · exact recovers set.allLive_of_rejoin h
      · obtain ⟨rfl⟩ := Except.ok.inj (Prod.mk.inj h).1
        exact ⟨nofun, False.elim⟩
    · next hnone =>
      obtain ⟨htick, rfl⟩ := Prod.mk.inj h
      refine ⟨fun heq => ?_, fun _ => ⟨rfl, Decidable.not_not.1 hnone⟩⟩
      rw [heq] at htick
      split at htick <;> cases htick

/--
After any calls on a new set, failed ones included: an update that has recovered leaves every
subscribed book active, and one that was idle or applied increments every one but those that a
failed join or recovery has dropped and that have been missing since.
-/
theorem live_of_update {network : Network} {config : Config} {templates : TemplateSet}
    (h : create network config templates = .ok set) (calls : List Call) {tick : Tick}
    {set' : BookSet} (hupdate : (calls.foldl Call.run set).update = (.ok tick, set')) :
    (tick = .recovered → set'.AllLive) ∧
      (tick.IsQuiet → ∀ i, set'.books.isSubscribed i = true →
        set'.books.isActive i = true ∨ i ∈ stranded calls set) := by
  have htold (i : Nat) : (calls.foldl Call.run set).Told i ∨ i ∈ stranded calls set :=
    set.told_run (.inl (set.told_create h i)) calls
  unfold update at hupdate
  generalize calls.foldl Call.run set = before at hupdate htold
  have hpolled : ({ before with books := { before.books with touched := [] } } : BookSet).poll.2.Told =
      before.Told := rfl
  rcases hset : ({ before with books := { before.books with touched := [] } } : BookSet).poll
    with ⟨result, polled⟩
  rw [hset] at hupdate hpolled
  cases result with
  | error e => cases hupdate
  | ok taken =>
    obtain ⟨hrecovered, hquiet⟩ := settle_vouches _ hupdate
    refine ⟨hrecovered, fun htick i hsubscribed => ?_⟩
    obtain ⟨rfl, hnone⟩ := hquiet htick
    refine (htold i).imp_left fun htold => ?_
    rw [← hpolled] at htold
    have happlied := htold.of_accounts (polled.accounts_foldl_applySteady taken i)
    refine (happlied hsubscribed).resolve_right fun hmark => ?_
    have := mem_desyncedBooks _ hsubscribed hmark
    rw [hnone] at this
    exact nomatch this

theorem update_eq_of_toOption {tick : Tick} (h : set.update.1.toOption = some tick) :
    set.update = (.ok tick, set.update.2) := by
  rcases hset : set.update with ⟨result, set'⟩
  rw [hset] at h
  cases result with
  | error e => cases h
  | ok tick' =>
    obtain rfl := Option.some.inj h
    rfl

/-- The book set of the market, before it is opened. -/
def marketSet : BookSet := (create marketNetwork marketConfig market).toOption.get rfl

/-- A subscription to a book that is not there fails, and costs the book that is there nothing. -/
theorem live_of_update_market :
    let calls : List Call := [.openAll, .subscribe 5, .subscribe 6]
    ∃ set', create marketNetwork marketConfig market = .ok marketSet ∧
      (calls.foldl Call.run marketSet).update = (.ok (.applied 1), set') ∧
      set'.books.isSubscribed 0 = true ∧ stranded calls marketSet = [] ∧
      (set'.books.isActive 0 = true ∨ 0 ∈ stranded calls marketSet) := by
  intro calls
  have hset : create marketNetwork marketConfig market = .ok marketSet := rfl
  have hupdate := update_eq_of_toOption (calls.foldl Call.run marketSet)
    (show _ = some (.applied 1) by decide +kernel)
  have hsubscribed : (calls.foldl Call.run marketSet).update.2.books.isSubscribed 0 = true := by
    decide +kernel
  exact ⟨_, hset, hupdate, hsubscribed, by decide +kernel,
    (live_of_update marketSet hset calls hupdate).2 trivial 0 hsubscribed⟩

/--
A recovery that gives up leaves its books without a mark: the next update is idle, with a subscribed
book that is not active.
-/
theorem idle_of_recover_exhausted :
    let before := [.openAll, .subscribe 5, .update, .update, .recover].foldl Call.run marketSet
    create marketNetwork marketConfig market = .ok marketSet ∧
      before.update.1.toOption = some .idle ∧ before.update.2.books.isSubscribed 0 = true ∧
      before.update.2.books.isActive 0 = false :=
  ⟨rfl, by decide +kernel⟩

end BookSet

end MarketFeed
