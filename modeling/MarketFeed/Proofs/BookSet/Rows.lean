import MarketFeed.BookSet.Books
import MarketFeed.BookSet.Poll
import MarketFeed.Proofs.Book.Apply

/-!
# Rows as one book sees them

Incremental refreshes are applied to all books together. What becomes of one book is decided by the
rows that are meant for it, whatever the rows in between do to others, and the terms of the books
never change. A snapshot is for one idle book: it does nothing, or fills that book, or leaves it
empty (`Books.applies_snapshot`).
-/

namespace MarketFeed

/-- The rows of a message, each with the positions of its fields. -/
def Located.rows (x : Located) : List (RowLayout × Row) :=
  match x.layout.entriesOf x.message with
  | none => []
  | some g => g.rows.map (x.layout.row, ·)

namespace Book

/-- Takes the next entry, or what there is instead of one. -/
def advance (b : Book) (rptSeq : UInt64) : Except BookError BookEntry → Except BookError Unit × Book
  | .ok entry => ({ b with rptSeq } : Book).apply entry
  | .error e => (.error e, { b with rptSeq })

theorem keeps_advance (b : Book) (rptSeq : UInt64) (entry : Except BookError BookEntry) :
    ({ b with rptSeq } : Book).Keeps (b.advance rptSeq entry).2 := by
  cases entry with
  | error e => exact ⟨rfl, rfl, rfl, rfl⟩
  | ok entry => exact keeps_apply { b with rptSeq } entry

/-- What a row that names the book makes of it, and whether the book is lost. -/
def takeRow (b : Book) (mode : Books.Mode) (x : RowLayout × Row) : Bool × Book :=
  match Books.judge b x.1 mode x.2 with
  | .skip => (false, b)
  | .lost => (true, { b with isActive := false })
  | .next rptSeq =>
    match b.advance rptSeq (x.1.bookEntry x.2 false) with
    | (.ok (), b) => (false, b)
    | (.error _, b) => (true, { b with isActive := false })

def takeRows (mode : Books.Mode) : List (RowLayout × Row) → Book → Bool × Book
  | [], b => (false, b)
  | x :: xs, b =>
    let (lost, b) := b.takeRow mode x
    let (later, b) := takeRows mode xs b
    (lost || later, b)

theorem takeRows_append (mode : Books.Mode) (xs ys : List (RowLayout × Row)) (b : Book) :
    takeRows mode (xs ++ ys) b =
      ((takeRows mode xs b).1 || (takeRows mode ys (takeRows mode xs b).2).1,
        (takeRows mode ys (takeRows mode xs b).2).2) := by
  induction xs generalizing b with
  | nil => simp [takeRows]
  | cons x xs ih => simp [takeRows, ih, Bool.or_assoc]

theorem terms_takeRow (b : Book) (mode : Books.Mode) (x : RowLayout × Row) :
    (b.takeRow mode x).2.terms = b.terms := by
  unfold takeRow
  cases Books.judge b x.1 mode x.2 with
  | skip => rfl
  | lost => rfl
  | next rptSeq =>
    have hterms := (b.keeps_advance rptSeq (x.1.bookEntry x.2 false)).terms
    dsimp only
    rcases hadvance : b.advance rptSeq (x.1.bookEntry x.2 false) with ⟨result, advanced⟩
    rw [hadvance] at hterms
    cases result <;> exact hterms

theorem terms_takeRows (mode : Books.Mode) (xs : List (RowLayout × Row)) (b : Book) :
    (takeRows mode xs b).2.terms = b.terms := by
  induction xs generalizing b with
  | nil => rfl
  | cons x xs ih => exact (ih _).trans (b.terms_takeRow mode x)

/-- Whether entries of the row's trading session belong to the book. -/
def hears (b : Book) (x : RowLayout × Row) : Bool := (x.1.tradingSessionOf x.2).all b.acceptsSession

theorem hears_congr {b c : Book} (h : b.terms = c.terms) (x : RowLayout × Row) :
    b.hears x = c.hears x := by
  unfold hears acceptsSession
  rw [session_of_terms h]

theorem judge_of_not_hears {b : Book} {x : RowLayout × Row} (h : b.hears x = false)
    (mode : Books.Mode) : Books.judge b x.1 mode x.2 = .skip := by
  have hother : (x.1.tradingSessionOf x.2).any (!b.acceptsSession ·) = true := by
    unfold hears at h
    cases hsession : x.1.tradingSessionOf x.2 with
    | none => simp [hsession] at h
    | some session => simpa [hsession] using h
  simp [Books.judge, hother]

theorem takeRow_of_not_hears {b : Book} {x : RowLayout × Row} (h : b.hears x = false)
    (mode : Books.Mode) : b.takeRow mode x = (false, b) := by
  unfold takeRow
  rw [judge_of_not_hears h]

/-- The book goes on listening to rows. -/
theorem hears_takeRow {b : Book} {x : RowLayout × Row} {xs : List (RowLayout × Row)}
    (h : ∀ y ∈ x :: xs, b.hears y = true) (mode : Books.Mode) :
    ∀ y ∈ xs, (b.takeRow mode x).2.hears y = true := by
  intro y hy
  rw [hears_congr (b.terms_takeRow mode x)]
  exact h y (List.mem_cons_of_mem x hy)

end Book

namespace Books

theorem find?_congr {bs bs' : Books} (h : bs.list.map Book.terms = bs'.list.map Book.terms)
    (id : Option UInt64) (symbol : Option (List UInt8)) :
    bs.find? id symbol = bs'.find? id symbol := by
  have hid : ∀ bs : Books, ∀ id,
      bs.byId? id = (bs.list.map Book.terms).findIdx? (·.securityId == id) := by
    intro bs id
    rw [List.findIdx?_map]
    rfl
  have hsymbol : ∀ bs : Books, ∀ symbol, bs.bySymbol? symbol =
      (bs.list.map Book.terms).findIdx? fun b => utf8Bytes b.symbol == symbol := by
    intro bs symbol
    rw [List.findIdx?_map]
    rfl
  unfold find?
  cases id with
  | some id => simp only [hid, h]
  | none =>
    cases symbol with
    | none => rfl
    | some symbol => simp only [Option.bind_some, hsymbol, h]

theorem getElem?_modify (bs : Books) (i j : Nat) (f : Book → Book) :
    (bs.modify i f).list[j]? = if i = j then (bs.list[j]?).map f else bs.list[j]? := by
  unfold modify
  rw [List.getElem?_modify]
  split
  · rfl
  · cases bs.list[j]? <;> rfl

theorem terms_modify {bs : Books} {i : Nat} {f : Book → Book}
    (h : ∀ b, bs.list[i]? = some b → (f b).terms = b.terms) :
    (bs.modify i f).list.map Book.terms = bs.list.map Book.terms := by
  refine List.ext_getElem? fun j => ?_
  rw [List.getElem?_map, List.getElem?_map, getElem?_modify]
  by_cases hj : i = j
  · subst hj
    rw [if_pos rfl]
    cases hb : bs.list[i]? with
    | none => rfl
    | some b => exact congrArg some (h b hb)
  · rw [if_neg hj]

theorem getElem?_put {bs : Books} {i : Nat} {b : Book} (hb : bs.list[i]? = some b) (c : Book)
    (j : Nat) :
    (bs.modify i fun _ => c).list[j]? = if i = j then some c else bs.list[j]? := by
  rw [getElem?_modify]
  by_cases hj : i = j
  · rw [if_pos hj, if_pos hj, ← hj, hb]
    rfl
  · rw [if_neg hj, if_neg hj]

section

variable {bs : Books} {i : Nat} {b : Book} {l : RowLayout} {row : Row} {mode : Mode}

@[simp] theorem list_compare (bs : Books) (b : Book) (l : RowLayout) (row : Row) :
    (bs.compare b l row).list = bs.list := rfl

theorem applyRow_skip (hfind : bs.find? (l.securityIdOf row) (l.symbolOf row) = some i)
    (hfor : mode.isFor i = true) (hb : bs.list[i]? = some b)
    (hskip : judge b l mode row = .skip) : applyRow l mode bs row = (none, bs) := by
  unfold applyRow
  rw [hfind]
  simp only [hfor, if_true, hb, hskip]

theorem applyRow_lost (hfind : bs.find? (l.securityIdOf row) (l.symbolOf row) = some i)
    (hfor : mode.isFor i = true) (hb : bs.list[i]? = some b)
    (hlost : judge b l mode row = .lost) :
    applyRow l mode bs row = (some i, (bs.compare b l row).deactivate i) := by
  unfold applyRow
  rw [hfind]
  simp only [hfor, if_true, hb, hlost]

theorem applyRow_next (hfind : bs.find? (l.securityIdOf row) (l.symbolOf row) = some i)
    (hfor : mode.isFor i = true) (hb : bs.list[i]? = some b) {rptSeq : UInt64}
    (hnext : judge b l mode row = .next rptSeq) :
    applyRow l mode bs row =
      match b.advance rptSeq (l.bookEntry row false) with
      | (.ok (), c) => (none, ((bs.compare b l row).modify i fun _ => c).touch i)
      | (.error _, c) =>
        (some i, (((bs.compare b l row).modify i fun _ => c).touch i).deactivate i) := by
  unfold applyRow
  rw [hfind]
  simp only [hfor, if_true, hb, hnext]
  cases l.bookEntry row false with
  | error e => rfl
  | ok entry =>
    dsimp only [Book.advance]
    rcases ({ b with rptSeq } : Book).apply entry with ⟨result, applied⟩
    cases result <;> rfl

/-- A row does to the book it names what the book makes of it, and nothing to the others. -/
theorem applyRow_of_named (hfind : bs.find? (l.securityIdOf row) (l.symbolOf row) = some i)
    (hfor : mode.isFor i = true) (hb : bs.list[i]? = some b) :
    (applyRow l mode bs row).1 = (if (b.takeRow mode (l, row)).1 then some i else none) ∧
      ∀ j, (applyRow l mode bs row).2.list[j]? =
        if i = j then some (b.takeRow mode (l, row)).2 else bs.list[j]? := by
  unfold Book.takeRow
  cases hjudge : judge b l mode row with
  | skip =>
    rw [applyRow_skip hfind hfor hb hjudge]
    refine ⟨rfl, fun j => ?_⟩
    by_cases hj : i = j
    · rw [if_pos hj, ← hj]
      exact hb
    · rw [if_neg hj]
  | lost =>
    rw [applyRow_lost hfind hfor hb hjudge]
    refine ⟨rfl, fun j => ?_⟩
    dsimp only
    rw [deactivate, getElem?_modify, list_compare]
    by_cases hj : i = j
    · rw [if_pos hj, if_pos hj, ← hj, hb]
      rfl
    · rw [if_neg hj, if_neg hj]
  | next rptSeq =>
    obtain ⟨result, advanced, hadvance⟩ :
        ∃ result advanced, b.advance rptSeq (l.bookEntry row false) = (result, advanced) :=
      ⟨_, _, rfl⟩
    rw [applyRow_next hfind hfor hb hjudge]
    simp only [hadvance]
    have hput : ∀ j, (((bs.compare b l row).modify i fun _ => advanced).touch i).list[j]? =
        if i = j then some advanced else bs.list[j]? := getElem?_put hb advanced
    cases result with
    | ok _ => exact ⟨rfl, hput⟩
    | error e =>
      refine ⟨rfl, fun j => ?_⟩
      dsimp only
      rw [deactivate, getElem?_modify, hput]
      by_cases hj : i = j
      · rw [if_pos hj, if_pos hj, if_pos hj]
        rfl
      · rw [if_neg hj, if_neg hj, if_neg hj]

/-- A row names a book that the mode is for, or does nothing. -/
theorem named_or_applyRow (l : RowLayout) (mode : Mode) (bs : Books) (row : Row) :
    (∃ i b, bs.find? (l.securityIdOf row) (l.symbolOf row) = some i ∧ mode.isFor i = true ∧
      bs.list[i]? = some b) ∨ applyRow l mode bs row = (none, bs) := by
  unfold applyRow
  cases bs.find? (l.securityIdOf row) (l.symbolOf row) with
  | none => exact .inr rfl
  | some i =>
    by_cases hfor : mode.isFor i = true
    · cases hb : bs.list[i]? with
      | none => exact .inr (by simp [hfor, hb])
      | some b => exact .inl ⟨i, b, rfl, hfor, hb⟩
    · exact .inr (by simp [hfor])

/-- A row that names a book only if the mode is not for it does nothing to it. -/
theorem applyRow_aside
    (h : bs.find? (l.securityIdOf row) (l.symbolOf row) = some i → mode.isFor i = false) :
    (applyRow l mode bs row).1 ≠ some i ∧ (applyRow l mode bs row).2.list[i]? = bs.list[i]? := by
  rcases named_or_applyRow l mode bs row with ⟨j, b, hfind, hfor, hb⟩ | hnothing
  · have hne : j ≠ i := by
      rintro rfl
      rw [h hfind] at hfor
      cases hfor
    obtain ⟨hlost, hlist⟩ := applyRow_of_named hfind hfor hb
    rw [hlost, hlist, if_neg hne]
    refine ⟨?_, rfl⟩
    split
    · simpa using hne
    · simp
  · rw [hnothing]
    exact ⟨by simp, rfl⟩

theorem terms_applyRow (l : RowLayout) (mode : Mode) (bs : Books) (row : Row) :
    (applyRow l mode bs row).2.list.map Book.terms = bs.list.map Book.terms := by
  rcases named_or_applyRow l mode bs row with ⟨i, b, hfind, hfor, hb⟩ | hnothing
  · refine List.ext_getElem? fun j => ?_
    rw [List.getElem?_map, List.getElem?_map, (applyRow_of_named hfind hfor hb).2]
    by_cases hj : i = j
    · rw [if_pos hj, ← hj, hb]
      exact congrArg some (b.terms_takeRow mode (l, row))
    · rw [if_neg hj]
  · rw [hnothing]

end

/-! ## One book among the others -/

/-- Whether a row names the book at a position, and entries of its trading session belong to it. -/
def isMeant (bs : Books) (target : Nat) (x : RowLayout × Row) : Bool :=
  bs.find? (x.1.securityIdOf x.2) (x.1.symbolOf x.2) == some target &&
    (bs.list[target]?).any (·.hears x)

theorem isMeant_congr {bs bs' : Books} (h : bs.list.map Book.terms = bs'.list.map Book.terms)
    (target : Nat) : bs.isMeant target = bs'.isMeant target := by
  funext x
  have hbook := congrArg (·[target]?) h
  simp only [List.getElem?_map] at hbook
  unfold isMeant
  rw [find?_congr h]
  cases hb : bs.list[target]? with
  | none =>
    rw [hb, Option.map_none, eq_comm, Option.map_eq_none_iff] at hbook
    rw [hbook]
  | some b =>
    rw [hb, Option.map_some, eq_comm, Option.map_eq_some_iff] at hbook
    obtain ⟨b', hb', hterms⟩ := hbook
    rw [hb', Option.any_some, Option.any_some, Book.hears_congr hterms]

/-- What rows leave of the books, and whether they lose one, as far as that one can tell. -/
structure Projects (mode : Mode) (target : Nat) (xs : List (RowLayout × Row)) (bs : Books)
    (lost : Prop) (after : Books) : Prop where
  terms : after.list.map Book.terms = bs.list.map Book.terms
  book : ∀ b, bs.list[target]? = some b →
    after.list[target]? = some (Book.takeRows mode (xs.filter (bs.isMeant target)) b).2
  lost : ∀ b, bs.list[target]? = some b →
    (lost ↔ (Book.takeRows mode (xs.filter (bs.isMeant target)) b).1 = true)

namespace Projects

variable {mode : Mode} {target : Nat} {xs ys : List (RowLayout × Row)} {bs mid after : Books}
  {p q : Prop}

theorem nil (mode : Mode) (target : Nat) (bs : Books) : Projects mode target [] bs False bs :=
  ⟨rfl, fun _ hb => hb, fun _ _ => by simp [Book.takeRows]⟩

theorem congr (h : Projects mode target xs bs p after) (hpq : p ↔ q) :
    Projects mode target xs bs q after :=
  ⟨h.terms, h.book, fun b hb => hpq.symm.trans (h.lost b hb)⟩

theorem append (h : Projects mode target xs bs p mid) (h' : Projects mode target ys mid q after) :
    Projects mode target (xs ++ ys) bs (p ∨ q) after := by
  have hmeant : mid.isMeant target = bs.isMeant target := isMeant_congr h.terms target
  refine ⟨h'.terms.trans h.terms, fun b hb => ?_, fun b hb => ?_⟩
  · rw [List.filter_append, Book.takeRows_append, h'.book _ (h.book b hb), hmeant]
  · rw [List.filter_append, Book.takeRows_append, h.lost b hb, h'.lost _ (h.book b hb), hmeant,
      Bool.or_eq_true]

end Projects

variable {mode : Mode} {target : Nat}

theorem projects_applyRow (hfor : mode.isFor target = true) (l : RowLayout) (bs : Books)
    (row : Row) :
    Projects mode target [(l, row)] bs ((applyRow l mode bs row).1 = some target)
      (applyRow l mode bs row).2 := by
  suffices h : ∀ b, bs.list[target]? = some b →
      (applyRow l mode bs row).2.list[target]? =
          some (Book.takeRows mode ([(l, row)].filter (bs.isMeant target)) b).2 ∧
        ((applyRow l mode bs row).1 = some target ↔
          (Book.takeRows mode ([(l, row)].filter (bs.isMeant target)) b).1 = true) from
    ⟨terms_applyRow l mode bs row, fun b hb => (h b hb).1, fun b hb => (h b hb).2⟩
  intro b hb
  by_cases hnamed : bs.find? (l.securityIdOf row) (l.symbolOf row) = some target
  · obtain ⟨hlost, hlist⟩ := applyRow_of_named hnamed hfor hb
    have htake : Book.takeRows mode ([(l, row)].filter (bs.isMeant target)) b =
        b.takeRow mode (l, row) := by
      have hmeant : bs.isMeant target (l, row) = b.hears (l, row) := by
        simp [isMeant, hnamed, hb]
      by_cases hhears : b.hears (l, row) = true
      · rw [List.filter_cons_of_pos (hmeant.trans hhears)]
        simp [Book.takeRows]
      · rw [List.filter_cons_of_neg (by rwa [hmeant])]
        rw [Book.takeRow_of_not_hears (Bool.eq_false_iff.2 hhears)]
        rfl
    rw [hlist, if_pos rfl, hlost, htake]
    refine ⟨rfl, ?_⟩
    split
    · next h => simp [h]
    · next h => simp [h]
  · have hmeant : bs.isMeant target (l, row) ≠ true := by simp [isMeant, hnamed]
    rw [List.filter_cons_of_neg hmeant]
    obtain ⟨hkept, hlist⟩ := applyRow_aside fun hfind => absurd hfind hnamed
    exact ⟨hlist.trans hb, by simpa [Book.takeRows] using hkept⟩

theorem projects_applyRows (hfor : mode.isFor target = true) (l : RowLayout) (rows : List Row)
    (bs : Books) :
    Projects mode target (rows.map (l, ·)) bs (target ∈ (applyRows l mode rows bs).1)
      (applyRows l mode rows bs).2 := by
  induction rows generalizing bs with
  | nil => exact (Projects.nil mode target bs).congr (by simp [applyRows])
  | cons row rows ih =>
    have hrow := projects_applyRow hfor l bs row
    rw [List.map_cons, ← List.singleton_append]
    simp only [applyRows]
    rcases hresult : applyRow l mode bs row with ⟨lost, bs'⟩
    rw [hresult] at hrow
    cases lost with
    | none => exact (hrow.append (ih bs')).congr (by simp)
    | some i =>
      refine (hrow.append (ih bs')).congr ?_
      simp only [Option.some.injEq, List.mem_insert_iff, eq_comm]

theorem projects_applyIncrement (hfor : mode.isFor target = true) (x : Located) (bs : Books) :
    Projects mode target x.rows bs (target ∈ (bs.applyIncrement x.message x.layout mode).1)
      (bs.applyIncrement x.message x.layout mode).2 := by
  unfold Located.rows applyIncrement
  cases x.layout.entriesOf x.message with
  | none => exact (Projects.nil mode target bs).congr (by simp)
  | some g => exact projects_applyRows hfor x.layout.row g.rows bs

theorem terms_applyIncrement (bs : Books) (x : Located) (mode : Mode) :
    (bs.applyIncrement x.message x.layout mode).2.list.map Book.terms =
      bs.list.map Book.terms := by
  cases mode with
  | steady =>
    have hfor : Mode.steady.isFor 0 = true := rfl
    exact (projects_applyIncrement hfor x bs).terms
  | replay only =>
    have hfor : (Mode.replay only).isFor only = true := beq_self_eq_true only
    exact (projects_applyIncrement hfor x bs).terms

/-- Applies one message after another, and collects the books that are lost. -/
def applyIncrements (mode : Mode) : List Located → Books → List Nat × Books
  | [], bs => ([], bs)
  | x :: xs, bs =>
    let (lost, bs) := bs.applyIncrement x.message x.layout mode
    let (later, bs) := applyIncrements mode xs bs
    (lost ++ later, bs)

theorem projects_applyIncrements (hfor : mode.isFor target = true) (xs : List Located)
    (bs : Books) :
    Projects mode target (xs.flatMap Located.rows) bs (target ∈ (applyIncrements mode xs bs).1)
      (applyIncrements mode xs bs).2 := by
  induction xs generalizing bs with
  | nil => exact (Projects.nil mode target bs).congr (by simp [applyIncrements])
  | cons x xs ih =>
    have hx := projects_applyIncrement hfor x bs
    rw [List.flatMap_cons]
    simp only [applyIncrements]
    rcases hresult : bs.applyIncrement x.message x.layout mode with ⟨lost, bs'⟩
    rw [hresult] at hx
    exact (hx.append (ih bs')).congr (by simp)

/-! ## Snapshots -/

section

variable {l : RowLayout} {row : Row} {rows : List Row} {b c d : Book} {entry : BookEntry}

theorem addRows_cons (hentry : l.bookEntry row true = .ok entry)
    (happly : b.apply entry = (.ok (), c)) (hlevels : c.isEmpty = false) :
    addRows l (row :: rows) b = addRows l rows c := by
  simp only [addRows, hentry, bind, Except.bind, happly, hlevels, Bool.false_eq_true, if_false]

/-- A row that is added has an entry, which the book accepts. The rest follows unless it is empty. -/
theorem addRows_cons_eq_ok (h : addRows l (row :: rows) b = .ok d) :
    ∃ entry c, l.bookEntry row true = .ok entry ∧ b.apply entry = (.ok (), c) ∧
      (c.isEmpty = true ∧ d = c ∨ c.isEmpty = false ∧ addRows l rows c = .ok d) := by
  rw [addRows] at h
  cases hentry : l.bookEntry row true with
  | error e => simp [hentry, bind, Except.bind] at h
  | ok entry =>
    simp only [hentry, bind, Except.bind] at h
    rcases happly : b.apply entry with ⟨result, c⟩
    rw [happly] at h
    cases result with
    | error e => cases h
    | ok _ =>
      refine ⟨entry, c, rfl, happly, ?_⟩
      dsimp only at h
      split at h
      · next hempty => exact .inl ⟨hempty, (Except.ok.inj h).symm⟩
      · next hlevels => exact .inr ⟨Bool.eq_false_iff.2 hlevels, h⟩

theorem keeps_addRows (h : addRows l rows b = .ok d) : b.Keeps d := by
  induction rows generalizing b with
  | nil =>
    obtain rfl := Except.ok.inj h
    exact ⟨rfl, rfl, rfl, rfl⟩
  | cons row rows ih =>
    obtain ⟨entry, c, -, happly, hlast⟩ := addRows_cons_eq_ok h
    have hkeeps := b.keeps_apply entry
    rw [happly] at hkeeps
    rcases hlast with ⟨-, rfl⟩ | ⟨-, hrows⟩
    · exact hkeeps
    · exact hkeeps.trans (ih hrows)

end

section

variable {bs : Books} {m : Message} {l : MessageLayout} {target : Nat} {b : Book} {g : Group}
  {rptSeq : UInt64}

/-- The message is a snapshot for an idle book, with these rows and this number. -/
structure Offers (bs : Books) (m : Message) (l : MessageLayout) (target : Nat) (b : Book)
    (g : Group) (rptSeq : UInt64) : Prop where
  named : bs.find? (l.securityIdOf m) (l.symbolOf m) = some target
  book : bs.list[target]? = some b
  isIdle : b.isActive = false
  entries : l.entriesOf m = some g
  accepted : acceptsSnapshot b m l g = true
  number : l.rptSeqOf m = some rptSeq

theorem Offers.applySnapshot (h : bs.Offers m l target b g rptSeq) :
    bs.applySnapshot m l target =
      match addRows l.row g.rows { b.clear with rptSeq } with
      | .error e => (.error e, bs.modify target fun _ => { b.clear with rptSeq })
      | .ok c => (.ok true, (bs.modify target fun _ => { c with isActive := true }).touch target) := by
  unfold Books.applySnapshot
  cases hrows : addRows l.row g.rows { b.clear with rptSeq } <;>
    simp only [h.named, ne_eq, not_true_eq_false, if_false, h.book, h.isIdle, Bool.false_eq_true,
      h.entries, h.accepted, Bool.not_true, h.number, hrows]

/-- All that a snapshot can do: nothing, or fill the book that it is for, or leave that one empty. -/
inductive Applies (bs : Books) (m : Message) (l : MessageLayout) (target : Nat) :
    Except BookError Bool × Books → Prop
  | passes {answer : Except BookError Bool} (h : answer ≠ .ok true) :
      Applies bs m l target (answer, bs)
  | empties {b : Book} {g : Group} {rptSeq : UInt64} {e : BookError}
      (offered : bs.Offers m l target b g rptSeq)
      (rows : addRows l.row g.rows { b.clear with rptSeq } = .error e) :
      Applies bs m l target (.error e, bs.modify target fun _ => { b.clear with rptSeq })
  | fills {b c : Book} {g : Group} {rptSeq : UInt64}
      (offered : bs.Offers m l target b g rptSeq)
      (rows : addRows l.row g.rows { b.clear with rptSeq } = .ok c) :
      Applies bs m l target
        (.ok true, (bs.modify target fun _ => { c with isActive := true }).touch target)

theorem applies_snapshot (bs : Books) (m : Message) (l : MessageLayout) (target : Nat) :
    bs.Applies m l target (bs.applySnapshot m l target) := by
  by_cases h : ∃ b g rptSeq, bs.Offers m l target b g rptSeq
  · obtain ⟨b, g, rptSeq, hoffers⟩ := h
    rw [hoffers.applySnapshot]
    cases hrows : addRows l.row g.rows { b.clear with rptSeq } with
    | error e => exact .empties hoffers hrows
    | ok c => exact .fills hoffers hrows
  · unfold applySnapshot
    split
    · exact .passes (by simp)
    · next hnamed =>
      split
      · exact .passes (by simp)
      · next b hb =>
        split
        · exact .passes (by simp)
        · next hidle =>
          split
          · exact .passes (by simp)
          · next g hentries =>
            split
            · exact .passes (by simp)
            · next haccepts =>
              split
              · exact .passes (by simp)
              · next rptSeq hrptSeq =>
                exact absurd ⟨b, g, rptSeq, Classical.not_not.1 hnamed, hb, Bool.eq_false_iff.2 hidle,
                  hentries, by simpa using haccepts, hrptSeq⟩ h

theorem terms_applySnapshot (bs : Books) (m : Message) (l : MessageLayout) (target : Nat) :
    (bs.applySnapshot m l target).2.list.map Book.terms = bs.list.map Book.terms := by
  have happlies := bs.applies_snapshot m l target
  generalize bs.applySnapshot m l target = result at happlies ⊢
  cases happlies with
  | passes _ => rfl
  | empties offered rows =>
    refine terms_modify fun b hb => ?_
    obtain rfl := Option.some.inj (offered.book.symm.trans hb)
    rfl
  | fills offered rows =>
    refine terms_modify fun b hb => ?_
    obtain rfl := Option.some.inj (offered.book.symm.trans hb)
    exact (keeps_addRows rows).terms

end

end Books

end MarketFeed
