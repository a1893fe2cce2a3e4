import MarketFeed.Proofs.BookSet.Live

/-!
# Books that count as changed

A book counts as changed when a row is taken or a snapshot is applied, from the next update on. It
does not when it is only taken out, nor when a snapshot fails over it and leaves it empty. That is
all that a book can go through without counting as changed (`marks_foldl`), so one that is active in
the end and shows anything else than before does count (`Book.Fades.view_eq`).
-/

namespace MarketFeed

/-- What can be seen of a book. -/
structure View where
  bids : List PriceLevel
  asks : List PriceLevel
  rptSeq : UInt64
  isActive : Bool
deriving DecidableEq, Repr

namespace Book

def view (b : Book) : View := ⟨b.bids, b.asks, b.rptSeq, b.isActive⟩

/--
What becomes of a book that does not count as changed: its levels and its number stay, unless it was
`emptied` and is not active, and it is as active as before, unless it was taken `out`.
-/
structure Fades (out emptied : Prop) (b b' : Book) : Prop where
  content : (b'.bids = b.bids ∧ b'.asks = b.asks ∧ b'.rptSeq = b.rptSeq) ∨
    emptied ∧ b'.bids = [] ∧ b'.asks = [] ∧ b'.isActive = false
  active : b'.isActive = b.isActive ∨ out ∧ b'.isActive = false

namespace Fades

variable {out emptied out' emptied' : Prop} {b b' b'' : Book}

theorem refl (out emptied : Prop) (b : Book) : Fades out emptied b b :=
  ⟨.inl ⟨rfl, rfl, rfl⟩, .inl rfl⟩

theorem mono (h : Fades out emptied b b') (hout : out → out') (hemptied : emptied → emptied') :
    Fades out' emptied' b b' :=
  ⟨h.content.imp_right fun h => ⟨hemptied h.1, h.2⟩, h.active.imp_right fun h => ⟨hout h.1, h.2⟩⟩

theorem trans (h : Fades out emptied b b') (h' : Fades out emptied b' b'') :
    Fades out emptied b b'' where
  content := by
    rcases h'.content with ⟨hbids, hasks, hrptSeq⟩ | hempty
    · rcases h.content with ⟨hbids', hasks', hrptSeq'⟩ | ⟨hemptied, hbids', hasks', hactive⟩
      · exact .inl ⟨hbids.trans hbids', hasks.trans hasks', hrptSeq.trans hrptSeq'⟩
      · refine .inr ⟨hemptied, hbids.trans hbids', hasks.trans hasks', ?_⟩
        exact h'.active.elim (·.trans hactive) And.right
    · exact .inr hempty
  active := by
    rcases h'.active with hsame | hout
    · rw [hsame]
      exact h.active
    · exact .inr hout

/-- A book that is active in the end has not changed at all. -/
theorem view_eq (h : Fades out emptied b b') (hactive : b'.isActive = true) :
    b'.view = b.view := by
  obtain ⟨hbids, hasks, hrptSeq⟩ := h.content.resolve_right fun ⟨_, _, _, hout⟩ =>
    Bool.false_ne_true (hout.symm.trans hactive)
  have hsame := h.active.resolve_right fun ⟨_, hout⟩ =>
    Bool.false_ne_true (hout.symm.trans hactive)
  simp only [view, hbids, hasks, hrptSeq, hsame]

end Fades

end Book

namespace Books

/-! ## Marks -/

/-- The book at position `i` is as it was, counts as changed, or has faded. Marks stay. -/
structure Marks (i : Nat) (out emptied : Prop) (bs bs' : Books) : Prop where
  touched : i ∈ bs.touched → i ∈ bs'.touched
  book : ∀ b, bs.list[i]? = some b →
    ∃ b', bs'.list[i]? = some b' ∧ (i ∈ bs'.touched ∨ b.Fades out emptied b')

namespace Marks

variable {i : Nat} {out emptied out' emptied' : Prop} {bs bs' bs'' : Books}

theorem refl (i : Nat) (out emptied : Prop) (bs : Books) : Marks i out emptied bs bs :=
  ⟨id, fun b hb => ⟨b, hb, .inr (.refl out emptied b)⟩⟩

theorem mono (h : Marks i out emptied bs bs') (hout : out → out') (hemptied : emptied → emptied') :
    Marks i out' emptied' bs bs' where
  touched := h.touched
  book b hb := by
    obtain ⟨b', hb', hmark⟩ := h.book b hb
    exact ⟨b', hb', hmark.imp_right (·.mono hout hemptied)⟩

theorem trans (h : Marks i out emptied bs bs') (h' : Marks i out emptied bs' bs'') :
    Marks i out emptied bs bs'' where
  touched hi := h'.touched (h.touched hi)
  book b hb := by
    obtain ⟨b', hb', hmark⟩ := h.book b hb
    obtain ⟨b'', hb'', hmark'⟩ := h'.book b' hb'
    refine ⟨b'', hb'', ?_⟩
    rcases hmark with hmark | hfades
    · exact .inl (h'.touched hmark)
    · exact hmark'.imp_right hfades.trans

theorem modify {j : Nat} {f : Book → Book}
    (hf : ∀ b, bs.list[j]? = some b → i = j → b.Fades out emptied (f b)) :
    Marks i out emptied bs (bs.modify j f) where
  touched hi := hi
  book b hb := by
    rw [getElem?_modify]
    by_cases hj : j = i
    · subst hj
      rw [if_pos rfl, hb]
      exact ⟨f b, rfl, .inr (hf b hb rfl)⟩
    · rw [if_neg hj]
      exact ⟨b, hb, .inr (.refl out emptied b)⟩

theorem compare (i : Nat) (out emptied : Prop) (bs : Books) (b : Book) (l : RowLayout) (row : Row) :
    Marks i out emptied bs (bs.compare b l row) :=
  ⟨id, fun c hc => ⟨c, hc, .inr (.refl out emptied c)⟩⟩

theorem deactivate (i : Nat) (emptied : Prop) (bs : Books) (j : Nat) :
    Marks i (i = j) emptied bs (bs.deactivate j) :=
  modify fun _ _ hj => ⟨.inl ⟨rfl, rfl, rfl⟩, .inr ⟨hj, rfl⟩⟩

/-- Whatever is done to a book that is marked at once. -/
theorem modify_touch (i : Nat) (out emptied : Prop) (bs : Books) (j : Nat) (f : Book → Book) :
    Marks i out emptied bs ((bs.modify j f).touch j) where
  touched hi := List.mem_insert_of_mem hi
  book b hb := by
    change ∃ b', (bs.modify j f).list[i]? = some b' ∧ _
    rw [getElem?_modify]
    by_cases hj : j = i
    · subst hj
      rw [if_pos rfl, hb]
      exact ⟨f b, rfl, .inl List.mem_insert_self⟩
    · rw [if_neg hj]
      exact ⟨b, hb, .inr (.refl out emptied b)⟩

end Marks

/-! ## Increments and snapshots -/

theorem marks_applyRow (i : Nat) (emptied : Prop) (l : RowLayout) (mode : Mode) (bs : Books)
    (row : Row) :
    Marks i ((applyRow l mode bs row).1 = some i) emptied bs (applyRow l mode bs row).2 := by
  rcases named_or_applyRow l mode bs row with ⟨j, b, hfind, hfor, hb⟩ | hnothing
  · cases hjudge : judge b l mode row with
    | skip =>
      rw [applyRow_skip hfind hfor hb hjudge]
      exact .refl i _ emptied bs
    | lost =>
      rw [applyRow_lost hfind hfor hb hjudge]
      refine (Marks.compare i _ emptied bs b l row).trans ?_
      exact (Marks.deactivate i emptied _ j).mono (fun h => congrArg some h.symm) id
    | next rptSeq =>
      rw [applyRow_next hfind hfor hb hjudge]
      refine (Marks.compare i _ emptied bs b l row).trans ?_
      rcases b.advance rptSeq (l.bookEntry row false) with ⟨result, advanced⟩
      -- The row is taken: the book is marked, and taken out again if an edit fails.
      cases result with
      | ok _ => exact .modify_touch i _ emptied _ j fun _ => advanced
      | error e =>
        refine (Marks.modify_touch i _ emptied _ j fun _ => advanced).trans ?_
        exact (Marks.deactivate i emptied _ j).mono (fun h => congrArg some h.symm) id
  · rw [hnothing]
    exact .refl i _ emptied bs

theorem marks_applyRows (i : Nat) (emptied : Prop) (l : RowLayout) (mode : Mode) (rows : List Row)
    (bs : Books) :
    Marks i (i ∈ (applyRows l mode rows bs).1) emptied bs (applyRows l mode rows bs).2 := by
  induction rows generalizing bs with
  | nil => exact .refl i _ emptied bs
  | cons row rows ih =>
    have hrow := marks_applyRow i emptied l mode bs row
    rw [applyRows]
    rcases hone : applyRow l mode bs row with ⟨lost, bs'⟩
    rw [hone] at hrow
    cases lost with
    | none => exact (hrow.mono (by simp) id).trans (ih bs')
    | some j =>
      dsimp only
      refine (hrow.mono (fun h => ?_) id).trans ((ih bs').mono List.mem_insert_of_mem id)
      exact List.mem_insert_iff.2 (.inl (Option.some.inj h).symm)

theorem marks_applyIncrement (i : Nat) (emptied : Prop) (bs : Books) (m : Message)
    (l : MessageLayout) (mode : Mode) :
    Marks i (i ∈ (bs.applyIncrement m l mode).1) emptied bs (bs.applyIncrement m l mode).2 := by
  unfold applyIncrement
  split
  · exact .refl i _ emptied bs
  · exact marks_applyRows i emptied l.row mode _ bs

/-- A snapshot marks its book, unless it fails: then the book is left empty. -/
theorem marks_applySnapshot (i : Nat) (out : Prop) (bs : Books) (m : Message) (l : MessageLayout)
    (target : Nat) :
    Marks i out (i = target ∧ ∃ e, (bs.applySnapshot m l target).1 = .error e) bs
      (bs.applySnapshot m l target).2 := by
  have happlies := bs.applies_snapshot m l target
  generalize bs.applySnapshot m l target = result at happlies ⊢
  cases happlies with
  | passes _ => exact .refl i out _ bs
  | @empties b g rptSeq e offered rows =>
    refine .modify fun c hc hi => ?_
    obtain rfl := Option.some.inj (offered.book.symm.trans hc)
    exact ⟨.inr ⟨⟨hi, e, rfl⟩, rfl, rfl, offered.isIdle⟩, .inl rfl⟩
  | fills _ _ => exact .modify_touch i out _ bs target _

end Books

namespace BookSet

/-! ## Moves -/

theorem marks_replay (i : Nat) (emptied : Prop) (target : Nat) (last : UInt64)
    (buffered : List Located) (bs : Books) :
    Books.Marks i (i = target) emptied bs (replay target last buffered bs).2 := by
  induction buffered generalizing bs with
  | nil => exact .refl i _ emptied bs
  | cons located buffered ih =>
    simp only [replay]
    split
    · exact ih bs
    · have hmarks := Books.marks_applyIncrement i emptied bs located.message located.layout
        (.replay target)
      have honly := (bs.sheds_applyIncrement located.message located.layout (.replay target)).2
      have hone := hmarks.mono (fun hi => (beq_iff_eq.1 (honly i hi)).symm) id
      rcases happly : bs.applyIncrement located.message located.layout (.replay target)
        with ⟨lost, bs'⟩
      rw [happly] at hone
      dsimp only
      split
      · exact hone
      · exact hone.trans (ih bs')

/-- Whether a move may take the book at position `i` out, without a mark. -/
def Move.TakesOut (set : BookSet) (i : Nat) : Move → Prop
  | .applied located => i ∈ (set.books.applyIncrement located.message located.layout .steady).1
  | .replayed target _ _ | .dropped target | .unsubscribed target => i = target
  | .restarted cause => ¬ cause.Spares i
  | _ => False

def Move.Empties (set : BookSet) (i : Nat) : Move → Prop
  | .shown target located => i = target ∧
    ∃ e, (set.books.applySnapshot located.message located.layout target).1 = .error e
  | _ => False

theorem marks_spare (bs : Books) (cause : Restart) (i : Nat) (emptied : Prop) :
    Books.Marks i (¬ cause.Spares i) emptied bs (bs.spare cause) := by
  cases cause with
  | opened => exact .refl i _ emptied bs
  | retried target => exact (Books.Marks.deactivate i emptied bs target).mono not_not_intro id
  | recovered =>
    refine ⟨id, fun b hb => ?_⟩
    refine ⟨{ b with isActive := false }, ?_, .inr ⟨.inl ⟨rfl, rfl, rfl⟩, .inr ⟨id, rfl⟩⟩⟩
    change (bs.list.map fun b => { b with isActive := false })[i]? = _
    rw [List.getElem?_map, hb]
    rfl

theorem marks_run (set : BookSet) (i : Nat) {m : Move} (hm : m.isWipe = false) :
    Books.Marks i (m.TakesOut set i) (m.Empties set i) set.books (m.run set).books := by
  cases m with
  | applied located => exact Books.marks_applyIncrement i _ set.books _ _ .steady
  | shown target located => exact Books.marks_applySnapshot i _ set.books _ _ target
  | replayed target last buffered => exact marks_replay i _ target last buffered set.books
  | dropped target => exact .deactivate i _ set.books target
  | restarted cause => exact marks_spare set.books cause i _
  | subscribed target => exact .modify fun b _ _ => ⟨.inl ⟨rfl, rfl, rfl⟩, .inl rfl⟩
  | unsubscribed target =>
    exact .modify fun b _ hi => ⟨.inl ⟨rfl, rfl, rfl⟩, .inr ⟨hi, rfl⟩⟩
  | wiped => cases hm
  | _ => exact .refl i _ _ set.books

/-- Marks that no move wipes off stay, and a book fades by moves that take it out or empty it. -/
theorem marks_foldl (set : BookSet) (i : Nat) {ms : List Move} (h : ∀ m ∈ ms, m.isWipe = false) :
    Books.Marks i (∃ x ∈ journal ms set, x.2.TakesOut x.1 i)
      (∃ x ∈ journal ms set, x.2.Empties x.1 i) set.books (ms.foldl Move.run set).books := by
  induction ms generalizing set with
  | nil => exact .refl i _ _ set.books
  | cons m ms ih =>
    obtain ⟨hm, hms⟩ := List.forall_mem_cons.1 h
    refine ((set.marks_run i hm).mono ?_ ?_).trans ((ih (m.run set) hms).mono ?_ ?_)
    · exact fun hout => ⟨_, List.mem_cons_self, hout⟩
    · exact fun hemptied => ⟨_, List.mem_cons_self, hemptied⟩
    · exact fun ⟨x, hx, hout⟩ => ⟨x, List.mem_cons_of_mem _ hx, hout⟩
    · exact fun ⟨x, hx, hemptied⟩ => ⟨x, List.mem_cons_of_mem _ hx, hemptied⟩

/-- Only updates wipe off marks. -/
theorem isWipe_composable : TrialComposable fun ms _ => ∀ m ∈ ms, m.isWipe = false where
  nil := by simp
  append h h' := List.forall_mem_append.2 ⟨h, h'⟩
  aside hm := by simpa using Move.isWipe_of_isAside (Move.isAside_of_isApart hm)
  tried m hm :=
    Move.isWipe_of_isAside (Move.isAside_of_isTrial (isTrial_of_mem_trySnapshotMoves _ m hm))
  failed _ := by simp [Move.isWipe]
  stalled _ := by simp [Move.isWipe]
  taken _ := by simp [Move.isWipe]

/-! ## From one update on -/

theorem mem_touchedBooks {set : BookSet} {i : Nat} {b : Book} (hb : set.books.list[i]? = some b)
    (hi : i ∈ set.books.touched) : b ∈ set.touchedBooks := by
  refine List.mem_map.2 ⟨(b, i), List.mem_filter.2 ⟨List.mem_zipIdx_iff_getElem?.2 hb, ?_⟩, rfl⟩
  simpa using hi

/--
From the start of the last update on, a book counts as changed, or it has faded at the most: then
its levels and its number are what they were, unless a snapshot has failed over it and left it
empty, and it is as active as it was, unless it was taken out. One that is active in the end counts
as changed if it shows anything else than before. The moves of the journal are all that is done.
-/
theorem touched_or_fades (set : BookSet) {calls : List Call} (h : .update ∉ calls) {i : Nat}
    {b : Book} (hb : set.books.list[i]? = some b) :
    let run := journal (moves (.update :: calls) set) set
    let after := (Call.update :: calls).foldl Call.run set
    (moves (.update :: calls) set).foldl Move.run set = after ∧
    ∃ b', after.books.list[i]? = some b' ∧
      (b' ∈ after.touchedBooks ∨
        b.Fades (∃ x ∈ run, x.2.TakesOut x.1 i) (∃ x ∈ run, x.2.Empties x.1 i) b') ∧
      (b'.isActive = true → b'.view ≠ b.view → b' ∈ after.touchedBooks) := by
  intro run after
  obtain ⟨rest, hmoves, hrest⟩ := isWipe_composable.joins.update set
  obtain ⟨later, hmoves, hlater⟩ :
      ∃ later, moves (.update :: calls) set = .wiped :: later ∧ ∀ m ∈ later, m.isWipe = false := by
    refine ⟨rest ++ moves calls (Call.run set .update), ?_, ?_⟩
    · rw [moves, Call.moves, hmoves, List.cons_append]
    · exact List.forall_mem_append.2 ⟨hrest, isWipe_composable.joins.moves _ h⟩
  have hrun : run = (set, .wiped) :: journal later set.wiped := congrArg (journal · set) hmoves
  have hmarks := set.wiped.marks_foldl i hlater
  have hafter : later.foldl Move.run set.wiped = after := by
    rw [show after = (moves (.update :: calls) set).foldl Move.run set from
      (set.foldl_moves _).symm, hmoves, List.foldl_cons, Move.run]
  rw [hafter] at hmarks
  obtain ⟨b', hb', hmark⟩ := hmarks.book b hb
  have hcounts : b' ∈ after.touchedBooks ∨
      b.Fades (∃ x ∈ run, x.2.TakesOut x.1 i) (∃ x ∈ run, x.2.Empties x.1 i) b' := by
    refine hmark.imp (mem_touchedBooks hb') fun hfades => hfades.mono ?_ ?_
    · rintro ⟨x, hx, hout⟩
      exact ⟨x, hrun ▸ List.mem_cons_of_mem _ hx, hout⟩
    · rintro ⟨x, hx, hemptied⟩
      exact ⟨x, hrun ▸ List.mem_cons_of_mem _ hx, hemptied⟩
  exact ⟨set.foldl_moves _, b', hb', hcounts, fun hactive hview =>
    hcounts.resolve_right fun hfades => hview (hfades.view_eq hactive)⟩

/-- Increments 1 to 3, of which 2 skips rows, and a snapshot up to 9 at a price off the tick. -/
def staleNetwork : Network
  | .file "increments" => some [
    .bytes [192, 129, 129, 129, 133, 129, 176, 128, 128, 0, 228, 138],
    .bytes [128, 130, 129, 133, 133, 176, 128, 128, 0, 228, 138],
    .bytes [128, 131, 129, 133, 134, 176, 128, 128, 0, 228, 138]]
  | .file "snapshots" => some [
    .bytes [192, 130, 129, 128, 133, 128, 129, 176, 128, 0, 228, 138],
    .bytes [128, 130, 137, 133, 137, 129, 176, 255, 0, 233, 138]]
  | _ => none

def staleSet : BookSet := (create staleNetwork marketConfig market).toOption.get rfl

/-- The book set before the update that finds the rows missing. -/
def staleBefore : BookSet := [.openAll, .subscribe 5].foldl Call.run staleSet

/-- After the update and a join the book does not count as changed, so it has only faded. -/
theorem touched_or_fades_stale :
    let run := journal (moves [.update, .subscribe 5] staleBefore) staleBefore
    let after := [.update, .subscribe 5].foldl Call.run staleBefore
    Call.update ∉ [Call.subscribe 5] ∧ after.touchedBooks = [] ∧
      ∃ b b', staleBefore.books.list[0]? = some b ∧ after.books.list[0]? = some b' ∧
        b.Fades (∃ x ∈ run, x.2.TakesOut x.1 0) (∃ x ∈ run, x.2.Empties x.1 0) b' := by
  intro run after
  have hcalls : Call.update ∉ [Call.subscribe 5] := by simp
  have hnone : after.touchedBooks = [] := by decide +kernel
  obtain ⟨b, hb⟩ : ∃ b, staleBefore.books.list[0]? = some b :=
    Option.isSome_iff_exists.1 (by decide +kernel)
  obtain ⟨-, b', hb', hcounts, -⟩ := touched_or_fades staleBefore hcalls hb
  refine ⟨hcalls, hnone, b, b', hb, hb', hcounts.resolve_left fun hmem => ?_⟩
  rw [hnone] at hmem
  cases hmem

/--
The update takes the book out, and the next join empties it over the snapshot that fails. It has
changed in every respect, and does not count as changed.
-/
theorem untouched_stale :
    create staleNetwork marketConfig market = .ok staleSet ∧
      staleBefore.books.list.map Book.view = [⟨[⟨100, 10⟩], [], 1, true⟩] ∧
      staleBefore.update.2.books.list.map Book.view = [⟨[⟨100, 10⟩], [], 1, false⟩] ∧
      staleBefore.update.2.touchedBooks = [] ∧
      ([.update, .subscribe 5].foldl Call.run staleBefore).books.list.map Book.view =
        [⟨[], [], 9, false⟩] ∧
      ([.update, .subscribe 5].foldl Call.run staleBefore).touchedBooks = [] :=
  ⟨rfl, by decide +kernel⟩

end BookSet

end MarketFeed
