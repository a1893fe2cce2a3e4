import MarketFeed.BookSet.Basic
import MarketFeed.Proofs.BookSet.Rows

/-!
# Which books are active

Increments take books out of service and never bring one in; a snapshot brings in the book that it
is for; and what happens to the others is told in the set of desynced books. Only two functions drop
books silently: a join its own, and a recovery all of them.
-/

namespace MarketFeed

namespace Book

/-- A row leaves a book as active as it was, unless the book is lost over it. -/
theorem activity_takeRow (b : Book) (mode : Books.Mode) (x : RowLayout × Row) :
    (b.takeRow mode x).2.isSubscribed = b.isSubscribed ∧
      (b.takeRow mode x).2.isActive = (b.isActive && !(b.takeRow mode x).1) := by
  unfold takeRow
  cases Books.judge b x.1 mode x.2 with
  | skip => simp
  | lost => simp
  | next rptSeq =>
    have hkeeps := b.keeps_advance rptSeq (x.1.bookEntry x.2 false)
    dsimp only
    rcases hadvance : b.advance rptSeq (x.1.bookEntry x.2 false) with ⟨result, advanced⟩
    rw [hadvance] at hkeeps
    cases result with
    | error e => exact ⟨hkeeps.isSubscribed, by simp⟩
    | ok _ => exact ⟨hkeeps.isSubscribed, by simpa using hkeeps.isActive⟩

end Book

namespace Books

/-- Whether the book at a position is active. -/
def isActive (bs : Books) (i : Nat) : Bool := (bs.list[i]?).any (·.isActive)

/-- Whether the book at a position is to be kept up. -/
def isSubscribed (bs : Books) (i : Nat) : Bool := (bs.list[i]?).any (·.isSubscribed)

section

variable (bs : Books) {i j : Nat} {f : Book → Book}

/-- A change that no book shows in some respect shows in it at no position. -/
theorem any_modify {p : Book → Bool} (h : ∀ b ∈ bs.list[j]?, p (f b) = p b) :
    ((bs.modify j f).list[i]?).any p = (bs.list[i]?).any p := by
  rw [getElem?_modify]
  split
  · next heq =>
    subst heq
    cases hb : bs.list[j]? with
    | none => rfl
    | some b => exact h b hb
  · rfl

theorem any_modify_ne (p : Book → Bool) (h : j ≠ i) :
    ((bs.modify j f).list[i]?).any p = (bs.list[i]?).any p := by
  rw [getElem?_modify, if_neg h]

end

theorem isActive_modify (bs : Books) (j i : Nat) (f : Book → Book)
    (h : ∀ b ∈ bs.list[j]?, (f b).isActive = b.isActive) :
    (bs.modify j f).isActive i = bs.isActive i := bs.any_modify h

theorem isActive_modify_ne (bs : Books) {j i : Nat} (h : j ≠ i) (f : Book → Book) :
    (bs.modify j f).isActive i = bs.isActive i := bs.any_modify_ne _ h

theorem isSubscribed_modify (bs : Books) (j i : Nat) (f : Book → Book)
    (h : ∀ b ∈ bs.list[j]?, (f b).isSubscribed = b.isSubscribed) :
    (bs.modify j f).isSubscribed i = bs.isSubscribed i := bs.any_modify h

theorem isSubscribed_modify_ne (bs : Books) {j i : Nat} (h : j ≠ i) (f : Book → Book) :
    (bs.modify j f).isSubscribed i = bs.isSubscribed i := bs.any_modify_ne _ h

theorem isActive_deactivate (bs : Books) (j i : Nat) :
    (bs.deactivate j).isActive i = true ↔ bs.isActive i = true ∧ i ≠ j := by
  rw [isActive, deactivate, getElem?_modify]
  split
  · next h =>
    subst h
    cases bs.list[j]? <;> simp
  · next h => simp [isActive, Ne.symm h]

@[simp] theorem isSubscribed_deactivate (bs : Books) (j i : Nat) :
    (bs.deactivate j).isSubscribed i = bs.isSubscribed i :=
  isSubscribed_modify bs j i _ fun _ _ => rfl

/-! ## Increments -/

/-- Just the books at these positions are no longer active. -/
structure Sheds (bs : Books) (lost : List Nat) (bs' : Books) : Prop where
  subscribed : ∀ i, bs'.isSubscribed i = bs.isSubscribed i
  active : ∀ i, bs'.isActive i = true ↔ bs.isActive i = true ∧ i ∉ lost

namespace Sheds

theorem refl (bs : Books) : bs.Sheds [] bs := ⟨fun _ => rfl, by simp⟩

theorem trans {bs bs' bs'' : Books} {first later lost : List Nat} (h : bs.Sheds first bs')
    (h' : bs'.Sheds later bs'') (hlost : ∀ i, i ∈ lost ↔ i ∈ first ∨ i ∈ later) :
    bs.Sheds lost bs'' where
  subscribed i := (h'.subscribed i).trans (h.subscribed i)
  active i := by rw [h'.active, h.active, hlost, not_or, and_assoc]

/-- Only the book at position `i` was changed, and it is lost or as active as before. -/
theorem put {bs bs' : Books} {i : Nat} {b c : Book} {lost : Bool} (hb : bs.list[i]? = some b)
    (hbooks : ∀ j, bs'.list[j]? = if i = j then some c else bs.list[j]?)
    (hs : c.isSubscribed = b.isSubscribed) (ha : c.isActive = (b.isActive && !lost)) :
    bs.Sheds (if lost then some i else none).toList bs' := by
  refine ⟨fun j => ?_, fun j => ?_⟩ <;> by_cases hj : i = j
  · rw [isSubscribed, hbooks, if_pos hj, isSubscribed, ← hj, hb]
    exact hs
  · rw [isSubscribed, hbooks, if_neg hj, isSubscribed]
  · subst hj
    cases lost <;> simp [isActive, hbooks, hb, ha]
  · cases lost <;> simp [isActive, hbooks, hj, Ne.symm hj]

end Sheds

theorem sheds_applyRow (l : RowLayout) (mode : Mode) (bs : Books) (row : Row) :
    bs.Sheds (applyRow l mode bs row).1.toList (applyRow l mode bs row).2 ∧
      ∀ i ∈ (applyRow l mode bs row).1, mode.isFor i = true := by
  rcases named_or_applyRow l mode bs row with ⟨i, b, hfind, hfor, hb⟩ | hnothing
  · obtain ⟨hlost, hbooks⟩ := applyRow_of_named hfind hfor hb
    obtain ⟨hs, ha⟩ := b.activity_takeRow mode (l, row)
    rw [hlost]
    refine ⟨.put hb hbooks hs ha, fun j hj => ?_⟩
    obtain rfl : i = j := by simpa using (Option.ite_none_right_eq_some.1 hj).2
    exact hfor
  · rw [hnothing]
    exact ⟨.refl bs, by simp⟩

theorem sheds_applyRows (l : RowLayout) (mode : Mode) (rows : List Row) (bs : Books) :
    bs.Sheds (applyRows l mode rows bs).1 (applyRows l mode rows bs).2 ∧
      ∀ i ∈ (applyRows l mode rows bs).1, mode.isFor i = true := by
  induction rows generalizing bs with
  | nil => exact ⟨.refl bs, by simp [applyRows]⟩
  | cons row rows ih =>
    have hrow := sheds_applyRow l mode bs row
    rw [applyRows]
    rcases hone : applyRow l mode bs row with ⟨lost, bs'⟩
    rw [hone] at hrow
    obtain ⟨hrest, hmode⟩ := ih bs'
    cases lost with
    | none => exact ⟨hrow.1.trans hrest (by simp), hmode⟩
    | some i =>
      refine ⟨hrow.1.trans hrest (by simp [List.mem_insert_iff]), fun j hj => ?_⟩
      rcases List.mem_insert_iff.1 hj with rfl | hj
      · exact hrow.2 j rfl
      · exact hmode j hj

theorem sheds_applyIncrement (bs : Books) (m : Message) (l : MessageLayout) (mode : Mode) :
    bs.Sheds (bs.applyIncrement m l mode).1 (bs.applyIncrement m l mode).2 ∧
      ∀ i ∈ (bs.applyIncrement m l mode).1, mode.isFor i = true := by
  unfold applyIncrement
  split
  · exact ⟨.refl bs, by simp⟩
  · exact sheds_applyRows _ _ _ _

/-! ## Snapshots -/

/-- A snapshot makes at most the book active that it is for, and makes none inactive. -/
structure Admits (bs : Books) (target : Nat) (result : Except BookError Bool) (bs' : Books) :
    Prop where
  idle : result = .ok true → bs.isActive target = false
  subscribed : ∀ i, bs'.isSubscribed i = bs.isSubscribed i
  kept : ∀ i, bs.isActive i = true → bs'.isActive i = true
  active : ∀ i, bs'.isActive i = true → bs.isActive i = true ∨ i = target ∧ result = .ok true

theorem Admits.refl (bs : Books) (target : Nat) {result : Except BookError Bool}
    (h : result ≠ .ok true) : bs.Admits target result bs :=
  ⟨fun heq => (h heq).elim, fun _ => rfl, fun _ h => h, fun _ h => .inl h⟩

theorem Admits.modify {bs : Books} {target : Nat} {b : Book} (hb : bs.list[target]? = some b)
    (hinactive : b.isActive = false) (b' : Book) (hs : b'.isSubscribed = b.isSubscribed)
    {result : Except BookError Bool} (hresult : b'.isActive = true → result = .ok true) :
    bs.Admits target result (bs.modify target fun _ => b') := by
  have hidle : bs.isActive target = false := by simp [isActive, hb, hinactive]
  refine ⟨fun _ => hidle, fun i => isSubscribed_modify bs target i _ fun c hc => ?_,
    fun i hi => ?_, fun i hi => ?_⟩
  · rw [Option.mem_def, hb] at hc
    obtain rfl := Option.some.inj hc
    exact hs
  · by_cases hne : target = i
    · subst hne
      cases hidle.symm.trans hi
    · rwa [isActive_modify_ne bs hne]
  · by_cases hne : target = i
    · subst hne
      refine .inr ⟨rfl, hresult ?_⟩
      simpa [isActive, getElem?_modify, hb] using hi
    · rw [isActive_modify_ne bs hne] at hi
      exact .inl hi

theorem admits_applySnapshot (bs : Books) (m : Message) (l : MessageLayout) (target : Nat) :
    bs.Admits target (bs.applySnapshot m l target).1 (bs.applySnapshot m l target).2 := by
  have happlies := bs.applies_snapshot m l target
  generalize bs.applySnapshot m l target = result at happlies ⊢
  cases happlies with
  | passes h => exact .refl bs target h
  | @empties b g rptSeq e offered rows =>
    refine .modify offered.book offered.isIdle { b.clear with rptSeq } rfl fun h => ?_
    cases offered.isIdle.symm.trans h
  | @fills b c g rptSeq offered rows =>
    have hs := (keeps_addRows rows).isSubscribed
    have hadmits := Admits.modify offered.book offered.isIdle { c with isActive := true } hs
      fun _ => rfl
    exact ⟨hadmits.idle, hadmits.subscribed, hadmits.kept, hadmits.active⟩

end Books

namespace BookSet

/-- What befalls book `i` is told: it is marked if it is no longer active, and stays marked. -/
structure Accounts (i : Nat) (set set' : BookSet) : Prop where
  subscribed : set'.books.isSubscribed i = set.books.isSubscribed i
  marked : i ∈ set.desynced → i ∈ set'.desynced
  lost : set.books.isActive i = true → set'.books.isActive i = true ∨ i ∈ set'.desynced

namespace Accounts

variable {i : Nat} {set set' set'' : BookSet}

theorem refl (i : Nat) (set : BookSet) : Accounts i set set := ⟨rfl, id, .inl⟩

theorem trans (h : Accounts i set set') (h' : Accounts i set' set'') : Accounts i set set'' where
  subscribed := h'.subscribed.trans h.subscribed
  marked hi := h'.marked (h.marked hi)
  lost hi := by
    rcases h.lost hi with hi | hi
    · exact h'.lost hi
    · exact .inr (h'.marked hi)

end Accounts

variable (set : BookSet)

/-! ## Increments in passing -/

theorem mem_desynced_applySteady (located : Located) (i : Nat) :
    i ∈ (set.applySteady located).desynced ↔
      i ∈ (set.books.applyIncrement located.message located.layout .steady).1 ∨
        i ∈ set.desynced := by
  simp only [applySteady]
  induction (set.books.applyIncrement located.message located.layout .steady).1 with
  | nil => simp
  | cons j lost ih => simp [List.mem_insert_iff, ih, or_assoc]

theorem accounts_applySteady (located : Located) (i : Nat) :
    Accounts i set (set.applySteady located) := by
  have hsheds := (set.books.sheds_applyIncrement located.message located.layout .steady).1
  have hmarked := set.mem_desynced_applySteady located i
  refine ⟨hsheds.subscribed i, fun hi => hmarked.2 (.inr hi), fun hi => ?_⟩
  by_cases hlost : i ∈ (set.books.applyIncrement located.message located.layout .steady).1
  · exact .inr (hmarked.2 (.inl hlost))
  · exact .inl ((hsheds.active i).2 ⟨hi, hlost⟩)

theorem isActive_of_applySteady {located : Located} {i : Nat}
    (h : (set.applySteady located).books.isActive i = true) : set.books.isActive i = true :=
  (((set.books.sheds_applyIncrement located.message located.layout .steady).1.active i).1 h).1

theorem accounts_foldl_applySteady (taken : List Located) (i : Nat) :
    Accounts i set (taken.foldl applySteady set) := by
  induction taken generalizing set with
  | nil => exact .refl i set
  | cons located taken ih => exact (set.accounts_applySteady located i).trans (ih _)

theorem isActive_of_foldl_applySteady {taken : List Located} {i : Nat}
    (h : (taken.foldl applySteady set).books.isActive i = true) : set.books.isActive i = true := by
  induction taken generalizing set with
  | nil => exact h
  | cons located taken ih => exact set.isActive_of_applySteady (ih _ h)

/-! ## Attempts to join -/

/-- A replay takes at most its own book out, and does so whenever it fails. -/
theorem sheds_replay (target : Nat) (last : UInt64) (buffered : List Located) (bs : Books) :
    ∃ lost, bs.Sheds lost (replay target last buffered bs).2 ∧ (∀ i ∈ lost, i = target) ∧
      ((replay target last buffered bs).1 = none → target ∈ lost) := by
  induction buffered generalizing bs with
  | nil => exact ⟨[], .refl bs, by simp, by simp [replay]⟩
  | cons located buffered ih =>
    simp only [replay]
    split
    · exact ih bs
    · have hone := bs.sheds_applyIncrement located.message located.layout (.replay target)
      rcases happly : bs.applyIncrement located.message located.layout (.replay target)
        with ⟨lost, bs'⟩
      rw [happly] at hone
      obtain ⟨hsheds, hmode⟩ := hone
      have honly (i : Nat) (hi : i ∈ lost) : i = target := (beq_iff_eq.1 (hmode i hi)).symm
      dsimp only
      split
      · next hlost => exact ⟨lost, hsheds, honly, fun _ => by simpa using hlost⟩
      · obtain ⟨later, hlater, honly', hnone⟩ := ih bs'
        refine ⟨lost ++ later, hsheds.trans hlater (by simp), fun i hi => ?_, fun h => ?_⟩
        · rcases List.mem_append.1 hi with hi | hi
          · exact honly i hi
          · exact honly' i hi
        · exact List.mem_append_right lost (hnone (Option.map_eq_none_iff.1 h))

/-- What an attempt comes to: only its own book can have become active, and then it has joined. -/
structure Attempts (target : Nat) (set : BookSet) (step : JoinStep) (set' : BookSet) : Prop where
  accounts : ∀ i, Accounts i set set'
  active : ∀ i, set'.books.isActive i = true →
    set.books.isActive i = true ∨ i = target ∧ step = .joined
  joined : step = .joined → set'.books.isActive target = true

theorem Attempts.of_eq {target : Nat} {set set' : BookSet} {step : JoinStep}
    (hbooks : set'.books = set.books) (hdesynced : set'.desynced = set.desynced)
    (hstep : step ≠ .joined) : Attempts target set step set' := by
  refine ⟨fun i => ⟨?_, ?_, ?_⟩, fun i hi => ?_, fun h => (hstep h).elim⟩
  · rw [hbooks]
  · rw [hdesynced]
    exact id
  · rw [hbooks]
    exact .inl
  · rw [hbooks] at hi
    exact .inl hi

theorem finishJoin_sheds (target : Nat) (a : Attempt) (last : UInt64) :
    ∃ lost, set.books.Sheds lost (set.finishJoin target a last).2.books ∧
      (∀ i ∈ lost, i = target) ∧
      (set.finishJoin target a last).2.desynced = set.desynced ∧
      ((set.finishJoin target a last).1 = .joined ↔
        (set.finishJoin target a last).2.books.isActive target = true) := by
  obtain ⟨lost, hsheds, honly, hnone⟩ := sheds_replay target last a.buffered.reverse set.books
  refine ⟨lost, ?_⟩
  unfold finishJoin
  rcases hreplay : replay target last a.buffered.reverse set.books with ⟨n, books⟩
  rw [hreplay] at hsheds hnone
  cases n with
  | none =>
    refine ⟨hsheds, honly, rfl, by simp, fun h => ?_⟩
    exact absurd (hnone rfl) ((hsheds.active target).1 h).2
  | some n =>
    refine ⟨hsheds, honly, rfl, ?_⟩
    dsimp only
    split
    · next hactive => exact ⟨fun _ => hactive, fun _ => rfl⟩
    · next hactive => exact ⟨by simp, fun h => (hactive h).elim⟩

theorem attempts_trySnapshot (target : Nat) (a : Attempt) (located : Located) :
    Attempts target set (set.trySnapshot target a located).1
      (set.trySnapshot target a located).2 := by
  unfold trySnapshot
  split
  · exact .of_eq rfl rfl (by simp)
  · next last _ =>
    split
    · exact .of_eq rfl rfl (by simp)
    · have hadmits := set.books.admits_applySnapshot located.message located.layout target
      rcases happly : set.books.applySnapshot located.message located.layout target
        with ⟨result, books⟩
      rw [happly] at hadmits
      have hother (h : result ≠ .ok true) (step : JoinStep) (hstep : step ≠ .joined) :
          Attempts target set step { set with books } := by
        refine ⟨fun i => ⟨hadmits.subscribed i, id, fun hi => .inl (hadmits.kept i hi)⟩,
          fun i hi => ?_, fun heq => (hstep heq).elim⟩
        exact (hadmits.active i hi).imp_right fun hi => (h hi.2).elim
      rcases result with e | found
      · exact hother (by simp) _ (by simp)
      · cases found with
        | false => exact hother (by simp) _ (by simp)
        | true =>
          obtain ⟨lost, hsheds, honly, hdesynced, hjoined⟩ :=
            finishJoin_sheds { set with books } target a last
          dsimp only at hsheds hdesynced hjoined ⊢
          refine ⟨fun i => ⟨?_, ?_, fun hi => ?_⟩, fun i hi => ?_, hjoined.1⟩
          · rw [hsheds.subscribed i]
            exact hadmits.subscribed i
          · rw [hdesynced]
            exact id
          · -- Only the book of the attempt can be lost, and it was not active before.
            refine .inl ((hsheds.active i).2 ⟨hadmits.kept i hi, fun hlost => ?_⟩)
            rw [honly i hlost] at hi
            cases (hadmits.idle rfl).symm.trans hi
          · rcases hadmits.active i ((hsheds.active i).1 hi).1 with hbefore | ⟨rfl, -⟩
            · exact .inl hbefore
            · exact .inr ⟨rfl, hjoined.2 hi⟩

theorem attempts_pollJoin (target : Nat) (a : Attempt) :
    Attempts target set (set.pollJoin target a).1 (set.pollJoin target a).2 := by
  unfold pollJoin
  have hbooks : set.poll.2.books = set.books := rfl
  have hdesynced : set.poll.2.desynced = set.desynced := rfl
  rcases hpoll : set.poll with ⟨result, polled⟩
  rw [hpoll] at hbooks hdesynced
  cases result with
  | error e => exact .of_eq hbooks hdesynced (by simp)
  | ok taken =>
    dsimp only at hbooks hdesynced ⊢
    split
    · exact .of_eq hbooks hdesynced (by simp)
    · have haccounts (i : Nat) : Accounts i set (taken.foldl applySteady polled) := by
        have := polled.accounts_foldl_applySteady taken i
        exact ⟨hbooks ▸ this.subscribed, hdesynced ▸ this.marked, hbooks ▸ this.lost⟩
      have hactive (i : Nat) (h : (taken.foldl applySteady polled).books.isActive i = true) :
          set.books.isActive i = true := hbooks ▸ polled.isActive_of_foldl_applySteady h
      generalize taken.foldl applySteady polled = applied at haccounts hactive ⊢
      have hlooked (snapshots : List Feed) (i : Nat) : Accounts i set { applied with snapshots } :=
        ⟨(haccounts i).subscribed, (haccounts i).marked, (haccounts i).lost⟩
      have hother (snapshots : List Feed) {step : JoinStep} (hstep : step ≠ .joined) :
          Attempts target set step { applied with snapshots } :=
        ⟨hlooked snapshots, fun i hi => .inl (hactive i hi), fun h => (hstep h).elim⟩
      rcases pollSnapshots applied.layouts applied.network applied.snapshots
        with ⟨result, snapshots⟩
      rcases result with e | found
      · exact hother snapshots (by simp)
      · cases found with
        | none => exact hother snapshots (by simp)
        | some located =>
          have htry := attempts_trySnapshot { applied with snapshots } target
            (taken.foldl Attempt.add a) located
          exact ⟨fun i => (hlooked snapshots i).trans (htry.accounts i),
            fun i hi => (htry.active i hi).imp_left (hactive i), htry.joined⟩

/-! ## Recoveries -/

/-- What a recovery starts from: the stream is forgotten, and no book is active. -/
def dropAll : BookSet :=
  let set := (set.count (·.countRecovery)).resetArbiter
  let list := set.books.list.map fun b => { b with isActive := false }
  { set with books := { set.books with list } }

theorem recover_eq : set.recover = set.dropAll.rejoin := rfl

theorem isSubscribed_dropAll (i : Nat) :
    set.dropAll.books.isSubscribed i = set.books.isSubscribed i := by
  change (((set.books.list.map fun b => { b with isActive := false })[i]?).any (·.isSubscribed)) = _
  rw [List.getElem?_map, Books.isSubscribed]
  cases set.books.list[i]? <;> rfl

end BookSet

end MarketFeed
