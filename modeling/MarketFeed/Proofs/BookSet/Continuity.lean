import MarketFeed.Proofs.Book.Refusal
import MarketFeed.Proofs.BookSet.Snapshot

/-!
# Books go on number by number

An increment advances each book by the rows that are meant for it, whatever the rows in between do to
the others. A book that is kept has taken the rows that were due, one number after the other, and
come to what their entries come to; one that is lost has done so up to a row that broke the order or
was refused, and has taken nothing since: `Books.increment_continuity`.
-/

namespace MarketFeed

/--
The rows that go past a number and past all rows before them. One without a number is among them,
since nothing says that it has been taken before.
-/
def pastRows : UInt64 → List (RowLayout × Row) → List (RowLayout × Row)
  | _, [] => []
  | number, x :: xs =>
    match x.1.rptSeqOf x.2 with
    | none => x :: pastRows number xs
    | some n => if number < n then x :: pastRows n xs else pastRows number xs

/-- The rows that a book has to take at this number. A replay passes nothing over. -/
def Books.Mode.due (mode : Books.Mode) (number : UInt64) (xs : List (RowLayout × Row)) :
    List (RowLayout × Row) :=
  match mode with
  | .steady => pastRows number xs
  | .replay _ => xs

/-- The rows carry the numbers that follow on a number, modulo the size of a word. -/
def Numbered : UInt64 → List (RowLayout × Row) → Prop
  | _, [] => True
  | number, x :: xs => x.1.rptSeqOf x.2 = some (number + 1) ∧ Numbered (number + 1) xs

/-! ## Numbers without wraparound -/

theorem Consecutive.lt {number : Nat} {xs : List (RowLayout × Row)} (h : Consecutive number xs)
    (hnumber : number < UInt64.size) : number + xs.length < UInt64.size := by
  induction xs generalizing number with
  | nil => exact hnumber
  | cons x xs ih =>
    obtain ⟨n, -, hn⟩ := Option.map_eq_some_iff.1 h.1
    have hlater := ih h.2 (hn ▸ n.toNat_lt_size)
    rw [List.length_cons]
    omega

theorem toNat_succ {number : UInt64} (h : number.toNat < 0xFFFFFFFFFFFFFFFF) :
    (number + 1).toNat = number.toNat + 1 := by
  rw [UInt64.toNat_add, UInt64.toNat_one]
  omega

/-- Rows that go past a number do not wrap around. -/
theorem Numbered.consecutive_pastRows {number : UInt64} {xs : List (RowLayout × Row)}
    (h : Numbered number (pastRows number xs)) :
    Consecutive number.toNat (pastRows number xs) := by
  induction xs generalizing number with
  | nil => trivial
  | cons x xs ih =>
    unfold pastRows at h ⊢
    cases hn : x.1.rptSeqOf x.2 with
    | none =>
      rw [hn] at h
      have hnext := h.1
      rw [hn] at hnext
      cases hnext
    | some n =>
      rw [hn] at h
      dsimp only at h ⊢
      by_cases hlt : number < n
      · rw [if_pos hlt] at h ⊢
        obtain ⟨hnext, hlater⟩ := h
        rw [hn] at hnext
        obtain rfl := Option.some.inj hnext
        have hsucc : (number + 1).toNat = number.toNat + 1 := by
          have := (UInt64.lt_iff_toNat_lt).1 hlt
          have := (number + 1).toNat_lt
          exact toNat_succ (by omega)
        refine ⟨?_, ?_⟩
        · rw [hn, Option.map_some, hsucc]
        · rw [← hsucc]
          exact ih hlater
      · rw [if_neg hlt] at h ⊢
        exact ih h

/-- Neither do rows that are below the last number. -/
theorem Numbered.consecutive {number : UInt64} {xs : List (RowLayout × Row)}
    (h : Numbered number xs) (hnumber : number.toNat < 0xFFFFFFFFFFFFFFFF)
    (hbelow : ∀ x ∈ xs, ∀ n, x.1.rptSeqOf x.2 = some n → n.toNat < 0xFFFFFFFFFFFFFFFF) :
    Consecutive number.toNat xs := by
  induction xs generalizing number with
  | nil => trivial
  | cons x xs ih =>
    have hsucc := toNat_succ hnumber
    refine ⟨?_, ?_⟩
    · rw [h.1, Option.map_some, hsucc]
    · rw [← hsucc]
      exact ih h.2 (hbelow x (List.mem_cons_self ..) _ h.1) fun y hy =>
        hbelow y (List.mem_cons_of_mem x hy)

theorem Books.Mode.consecutive_due {mode : Books.Mode} {number : UInt64}
    {xs : List (RowLayout × Row)} (h : Numbered number (mode.due number xs))
    (hbelow : ∀ x ∈ xs, ∀ n, x.1.rptSeqOf x.2 = some n → n.toNat < 0xFFFFFFFFFFFFFFFF)
    (hnumber : mode = .steady ∨ number.toNat < 0xFFFFFFFFFFFFFFFF) :
    Consecutive number.toNat (mode.due number xs) := by
  cases mode with
  | steady => exact Numbered.consecutive_pastRows h
  | replay only => exact Numbered.consecutive h (hnumber.resolve_left (by simp)) hbelow

namespace Book

variable {b c b' : Book} {mode : Books.Mode} {x : RowLayout × Row} {xs : List (RowLayout × Row)}

/-! ## Entering rows -/

/-- The book at this number. -/
def numbered (b : Book) (number : UInt64) : Book := { b with rptSeq := number }

/-- No entry looks at the number. -/
theorem apply_numbered (b : Book) (number : UInt64) (e : BookEntry) :
    (b.numbered number).apply e = ((b.apply e).1, (b.apply e).2.numbered number) := by
  unfold Book.apply
  cases e.kind.side? with
  | none => rfl
  | some side =>
    have halike : ({ b with isEmpty := false } : Book).Alike
        { b.numbered number with isEmpty := false } := ⟨rfl, fun side => by cases side <;> rfl⟩
    obtain ⟨r, hb, hnumbered⟩ := applyTo_edits halike side e
    dsimp only
    rw [hb, hnumbered]
    cases r with
    | error error => rfl
    | ok levels => cases side <;> rfl

/-- The book once it has taken the entry of a row. -/
def enter (b : Book) (x : RowLayout × Row) : Except BookError Book := do
  let entry ← x.1.bookEntry x.2 false
  match b.apply entry with
  | (.ok (), b) => .ok b
  | (.error e, _) => .error e

/-- The book once it has taken the entries of rows, one after another. -/
def enterAll (b : Book) (xs : List (RowLayout × Row)) : Except BookError Book := xs.foldlM enter b

theorem enterAll_cons (b : Book) (x : RowLayout × Row) (xs : List (RowLayout × Row)) :
    b.enterAll (x :: xs) = b.enter x >>= (·.enterAll xs) := rfl

theorem enter_numbered (b : Book) (number : UInt64) (x : RowLayout × Row) :
    (b.numbered number).enter x = (b.enter x).map (·.numbered number) := by
  unfold enter
  cases x.1.bookEntry x.2 false with
  | error e => rfl
  | ok entry =>
    simp only [bind, Except.bind, apply_numbered]
    rcases b.apply entry with ⟨result, applied⟩
    cases result <;> rfl

theorem enterAll_numbered (b : Book) (number : UInt64) (xs : List (RowLayout × Row)) :
    (b.numbered number).enterAll xs = (b.enterAll xs).map (·.numbered number) := by
  induction xs generalizing b with
  | nil => rfl
  | cons x xs ih =>
    rw [enterAll_cons, enterAll_cons, enter_numbered]
    cases b.enter x with
    | error e => rfl
    | ok c => exact ih c

theorem enter_eq_ok (h : b.enter x = .ok c) :
    ∃ entry, x.1.bookEntry x.2 false = .ok entry ∧ b.apply entry = (.ok (), c) := by
  unfold enter at h
  cases hentry : x.1.bookEntry x.2 false with
  | error e => simp [hentry, bind, Except.bind] at h
  | ok entry =>
    refine ⟨entry, rfl, ?_⟩
    simp only [hentry, bind, Except.bind] at h
    rcases happly : b.apply entry with ⟨result, applied⟩
    rw [happly] at h
    cases result with
    | error e => cases h
    | ok _ => rw [Except.ok.inj h]

theorem enter_eq_error {e : BookError} (h : b.enter x = .error e) :
    x.1.bookEntry x.2 false = .error e ∨
      ∃ entry, x.1.bookEntry x.2 false = .ok entry ∧ (b.apply entry).1 = .error e := by
  unfold enter at h
  cases hentry : x.1.bookEntry x.2 false with
  | error e' =>
    rw [hentry] at h
    exact .inl (congrArg Except.error (Except.error.inj h))
  | ok entry =>
    refine .inr ⟨entry, rfl, ?_⟩
    simp only [hentry, bind, Except.bind] at h
    rcases happly : b.apply entry with ⟨result, applied⟩
    rw [happly] at h
    cases result with
    | error e' => rw [Except.error.inj h]
    | ok _ => cases h

theorem isActive_enter (h : b.enter x = .ok c) : c.isActive = b.isActive := by
  obtain ⟨entry, -, happly⟩ := enter_eq_ok h
  have hkeeps := b.keeps_apply entry
  rw [happly] at hkeeps
  exact hkeeps.isActive

theorem isActive_enterAll (h : b.enterAll xs = .ok c) : c.isActive = b.isActive := by
  induction xs generalizing b with
  | nil => rw [Except.ok.inj h]
  | cons x xs ih =>
    rw [enterAll_cons] at h
    cases henter : b.enter x with
    | error e =>
      rw [henter] at h
      cases h
    | ok d =>
      rw [henter] at h
      exact (ih h).trans (isActive_enter henter)

/-! ## One row -/

/-- The row is not behind the book, as far as the mode passes over such rows. -/
def IsDue (b : Book) (mode : Books.Mode) (n : UInt64) : Prop := mode = .steady → b.rptSeq < n

/--
The ways in which a row breaks a book: it has no number, it is due but not next, or it is next and
its entry is missing or refused. The levels stay in any case.
-/
inductive Breaks (mode : Books.Mode) (x : RowLayout × Row) (b : Book) : Book → Prop
  | unnumbered (number : x.1.rptSeqOf x.2 = none) : Breaks mode x b { b with isActive := false }
  | outOfTurn {n : UInt64} (number : x.1.rptSeqOf x.2 = some n) (due : b.IsDue mode n)
      (skips : n ≠ b.rptSeq + 1) : Breaks mode x b { b with isActive := false }
  | refused {e : BookError} (number : x.1.rptSeqOf x.2 = some (b.rptSeq + 1))
      (due : b.IsDue mode (b.rptSeq + 1)) (refused : b.enter x = .error e) :
      Breaks mode x b
        { b with
          rptSeq := b.rptSeq + 1
          isActive := false
          isEmpty := b.isEmpty && !(x.1.bookEntry x.2 false).isOk }

theorem Breaks.isActive (h : b.Breaks mode x b') : b'.isActive = false := by
  cases h <;> rfl

/-- All that a row can do to an active book that it is meant for. -/
inductive Steps (mode : Books.Mode) (x : RowLayout × Row) (b : Book) : Bool × Book → Prop
  | passes {n : UInt64} (number : x.1.rptSeqOf x.2 = some n) (steady : mode = .steady)
      (behind : n ≤ b.rptSeq) : Steps mode x b (false, b)
  | takes {c : Book} (number : x.1.rptSeqOf x.2 = some (b.rptSeq + 1))
      (due : b.IsDue mode (b.rptSeq + 1)) (entered : b.enter x = .ok c) :
      Steps mode x b (false, c.numbered (b.rptSeq + 1))
  | breaks {b' : Book} (h : b.Breaks mode x b') : Steps mode x b (true, b')

theorem advance_entered (h : b.enter x = .ok c) (number : UInt64) :
    b.advance number (x.1.bookEntry x.2 false) = (.ok (), c.numbered number) := by
  obtain ⟨entry, hentry, happly⟩ := enter_eq_ok h
  have hadvance : b.advance number (.ok entry) = _ := b.apply_numbered number entry
  rw [hentry, hadvance, happly]

theorem advance_refused {e : BookError} (h : b.enter x = .error e) (number : UInt64) :
    b.advance number (x.1.bookEntry x.2 false) =
      (.error e,
        { b with
          rptSeq := number
          isEmpty := b.isEmpty && !(x.1.bookEntry x.2 false).isOk }) := by
  rcases enter_eq_error h with hentry | ⟨entry, hentry, hrefuses⟩
  · simp [hentry, advance, Except.isOk, Except.toBool]
  · have hadvance : b.advance number (.ok entry) = _ := b.apply_numbered number entry
    rw [hentry, hadvance, hrefuses, apply_refused hrefuses]
    simp [numbered, marked, Except.isOk, Except.toBool]

theorem steps_takeRow (hactive : b.isActive = true) (hhears : b.hears x = true)
    (mode : Books.Mode) : b.Steps mode x (b.takeRow mode x) := by
  have hsession : (x.1.tradingSessionOf x.2).any (!b.acceptsSession ·) = false := by
    unfold hears at hhears
    cases hsession : x.1.tradingSessionOf x.2 with
    | none => rfl
    | some session => simpa [hsession] using hhears
  unfold takeRow Books.judge
  rw [hactive, hsession]
  simp only [Bool.not_true, Bool.or_self, Bool.false_eq_true, if_false]
  cases hnumber : x.1.rptSeqOf x.2 with
  | none => exact .breaks (.unnumbered hnumber)
  | some n =>
    dsimp only
    by_cases hstale : mode = .steady ∧ n ≤ b.rptSeq
    · rw [if_pos hstale]
      exact .passes hnumber hstale.1 hstale.2
    · have hdue : b.IsDue mode n := fun hsteady =>
        UInt64.not_le.1 fun hbehind => hstale ⟨hsteady, hbehind⟩
      rw [if_neg hstale]
      by_cases hnext : n = b.rptSeq + 1
      · subst hnext
        rw [if_pos rfl]
        cases henter : b.enter x with
        | ok c =>
          simp only [advance_entered henter]
          exact .takes hnumber hdue henter
        | error e =>
          simp only [advance_refused henter]
          exact .breaks (.refused hnumber hdue henter)
      · rw [if_neg hnext]
        exact .breaks (.outOfTurn hnumber hdue hnext)

/-! ## Row after row -/

/-- The book has taken the rows that were due, one number after the other, and passed the rest. -/
structure Takes (mode : Books.Mode) (xs : List (RowLayout × Row)) (b b' : Book) : Prop where
  numbers : Numbered b.rptSeq (mode.due b.rptSeq xs)
  book : ∃ c, b.enterAll (mode.due b.rptSeq xs) = .ok c ∧
    b' = c.numbered (b.rptSeq + .ofNat (mode.due b.rptSeq xs).length)

theorem Takes.nil (mode : Books.Mode) (b : Book) : b.Takes mode [] b := by
  have hdue : mode.due b.rptSeq [] = [] := by cases mode <;> rfl
  refine ⟨?_, b, ?_, ?_⟩
  · rw [hdue]
    trivial
  · rw [hdue]
    rfl
  · rw [hdue]
    exact congrArg b.numbered (UInt64.add_zero b.rptSeq).symm

theorem Takes.eq_of_nil (h : b.Takes mode [] b') : b' = b := by
  obtain ⟨-, c, hentered, rfl⟩ := h
  have hdue : mode.due b.rptSeq [] = [] := by cases mode <;> rfl
  rw [hdue] at hentered ⊢
  obtain rfl := Except.ok.inj hentered
  exact congrArg b.numbered (UInt64.add_zero b.rptSeq)

theorem Takes.passes (h : b.Takes .steady xs b') {n : UInt64}
    (hnumber : x.1.rptSeqOf x.2 = some n) (hbehind : n ≤ b.rptSeq) :
    b.Takes .steady (x :: xs) b' := by
  have hdue : Books.Mode.due .steady b.rptSeq (x :: xs) = Books.Mode.due .steady b.rptSeq xs := by
    simp only [Books.Mode.due, pastRows, hnumber]
    rw [if_neg (UInt64.not_lt.2 hbehind)]
  obtain ⟨hnumbers, hbook⟩ := h
  rw [← hdue] at hnumbers hbook
  exact ⟨hnumbers, hbook⟩

theorem Takes.cons (h : (c.numbered (b.rptSeq + 1)).Takes mode xs b')
    (hnumber : x.1.rptSeqOf x.2 = some (b.rptSeq + 1)) (hisDue : b.IsDue mode (b.rptSeq + 1))
    (henter : b.enter x = .ok c) : b.Takes mode (x :: xs) b' := by
  have hdue : mode.due b.rptSeq (x :: xs) = x :: mode.due (b.rptSeq + 1) xs := by
    cases mode with
    | replay only => rfl
    | steady =>
      simp only [Books.Mode.due, pastRows, hnumber]
      rw [if_pos (hisDue rfl)]
  obtain ⟨hnumbers, d, henterAll, rfl⟩ := h
  rw [enterAll_numbered] at henterAll
  change (c.enterAll (mode.due (b.rptSeq + 1) xs)).map _ = _ at henterAll
  cases hd : c.enterAll (mode.due (b.rptSeq + 1) xs) with
  | error e => simp [hd, Except.map] at henterAll
  | ok entered =>
    rw [hd] at henterAll
    obtain rfl := Except.ok.inj henterAll
    refine ⟨?_, entered, ?_, ?_⟩
    · rw [hdue]
      exact ⟨hnumber, hnumbers⟩
    · rw [hdue, enterAll_cons, henter]
      exact hd
    · rw [hdue, List.length_cons, Nat.add_comm, UInt64.ofNat_add, ← UInt64.add_assoc]
      rfl

theorem Takes.isActive (h : b.Takes mode xs b') : b'.isActive = b.isActive := by
  obtain ⟨c, hentered, rfl⟩ := h.book
  change c.isActive = b.isActive
  exact isActive_enterAll hentered

/-- Without wraparound the number grows by one for each row. -/
theorem Takes.toNat_rptSeq (h : b.Takes mode xs b')
    (hnumbers : Consecutive b.rptSeq.toNat (mode.due b.rptSeq xs)) :
    b'.rptSeq.toNat = b.rptSeq.toNat + (mode.due b.rptSeq xs).length := by
  obtain ⟨c, -, rfl⟩ := h.book
  have hfits := hnumbers.lt b.rptSeq.toNat_lt_size
  change (b.rptSeq + UInt64.ofNat _).toNat = _
  rw [UInt64.toNat_add, UInt64.toNat_ofNat', Nat.add_mod_mod]
  exact Nat.mod_eq_of_lt hfits

/-- The book has taken the rows before one that breaks it, and none since. -/
def BreaksOff (mode : Books.Mode) (xs : List (RowLayout × Row)) (b b' : Book) : Prop :=
  ∃ before x later c, xs = before ++ x :: later ∧ b.Takes mode before c ∧ c.Breaks mode x b'

theorem BreaksOff.isActive (h : b.BreaksOff mode xs b') : b'.isActive = false := by
  obtain ⟨before, x, later, c, -, -, hbreaks⟩ := h
  exact hbreaks.isActive

theorem takeRow_of_idle (h : b.isActive = false) (mode : Books.Mode) (x : RowLayout × Row) :
    b.takeRow mode x = (false, b) := by
  simp [takeRow, Books.judge, h]

theorem takeRows_of_idle (h : b.isActive = false) (mode : Books.Mode)
    (xs : List (RowLayout × Row)) : takeRows mode xs b = (false, b) := by
  induction xs with
  | nil => rfl
  | cons x xs ih => simp only [takeRows, takeRow_of_idle h, ih, Bool.or_self]

theorem BreaksOff.ne_nil (h : b.BreaksOff mode xs b') : xs ≠ [] := by
  obtain ⟨before, x, later, c, rfl, -, -⟩ := h
  simp

/-- An active book takes all rows that are due, or takes those before one that breaks it. -/
theorem takes_or_breaksOff (hactive : b.isActive = true) (hhears : ∀ x ∈ xs, b.hears x = true)
    (mode : Books.Mode) :
    (takeRows mode xs b).1 = false ∧ b.Takes mode xs (takeRows mode xs b).2 ∨
      (takeRows mode xs b).1 = true ∧ b.BreaksOff mode xs (takeRows mode xs b).2 := by
  induction xs generalizing b with
  | nil => exact .inl ⟨rfl, .nil mode b⟩
  | cons x xs ih =>
    have hstep := steps_takeRow hactive (hhears x (List.mem_cons_self ..)) mode
    have hlater := hears_takeRow hhears mode
    simp only [takeRows]
    generalize b.takeRow mode x = step at hstep hlater ⊢
    cases hstep with
    | @passes n number steady behind =>
      subst steady
      rcases ih hactive hlater with ⟨hkept, htakes⟩ | ⟨hlost, before, y, later, c, rfl, htakes, h⟩
      · exact .inl ⟨hkept, htakes.passes number behind⟩
      · exact .inr ⟨hlost, x :: before, y, later, c, rfl, htakes.passes number behind, h⟩
    | @takes c number due entered =>
      have hstill : (c.numbered (b.rptSeq + 1)).isActive = true :=
        (isActive_enter entered).trans hactive
      rcases ih hstill hlater with ⟨hkept, htakes⟩ | ⟨hlost, before, y, later, d, rfl, htakes, h⟩
      · exact .inl ⟨hkept, htakes.cons number due entered⟩
      · exact .inr ⟨hlost, x :: before, y, later, d, rfl, htakes.cons number due entered, h⟩
    | breaks h =>
      rw [takeRows_of_idle h.isActive]
      exact .inr ⟨rfl, [], x, xs, b, rfl, .nil mode b, h⟩

end Book

namespace Books

variable {bs : Books} {mode : Mode} {i : Nat}

/-! ## Other books -/

theorem applyRows_of_not_for (hfor : mode.isFor i = false) (l : RowLayout) (rows : List Row)
    (bs : Books) :
    i ∉ (applyRows l mode rows bs).1 ∧ (applyRows l mode rows bs).2.list[i]? = bs.list[i]? := by
  induction rows generalizing bs with
  | nil => exact ⟨by simp [applyRows], rfl⟩
  | cons row rows ih =>
    have haside : (applyRow l mode bs row).1 ≠ some i ∧
        (applyRow l mode bs row).2.list[i]? = bs.list[i]? := applyRow_aside fun _ => hfor
    obtain ⟨hother, hlist⟩ := haside
    simp only [applyRows]
    generalize applyRow l mode bs row = step at hother hlist ⊢
    obtain ⟨lost, bs'⟩ := step
    obtain ⟨hothers, hlists⟩ := ih bs'
    cases lost with
    | none => exact ⟨hothers, hlists.trans hlist⟩
    | some j =>
      rw [List.mem_insert_iff, not_or]
      exact ⟨⟨fun hij => hother (congrArg some hij.symm), hothers⟩, hlists.trans hlist⟩

/-- A replay is about one book only. -/
theorem applyIncrement_of_not_for (hfor : mode.isFor i = false) (x : Located) (bs : Books) :
    i ∉ (bs.applyIncrement x.message x.layout mode).1 ∧
      (bs.applyIncrement x.message x.layout mode).2.list[i]? = bs.list[i]? := by
  unfold applyIncrement
  cases x.layout.entriesOf x.message with
  | none => exact ⟨by simp, rfl⟩
  | some g => exact applyRows_of_not_for hfor x.layout.row g.rows bs

/-! ## An increment -/

/-- The rows of a message that count for a book. -/
def rowsFor (bs : Books) (mode : Mode) (i : Nat) (b : Book) (x : Located) :
    List (RowLayout × Row) :=
  if b.isActive && mode.isFor i then x.rows.filter (bs.isMeant i) else []

theorem rowsFor_sublist (bs : Books) (mode : Mode) (i : Nat) (b : Book) (x : Located) :
    (bs.rowsFor mode i b x).Sublist x.rows := by
  unfold rowsFor
  split
  · exact List.filter_sublist
  · exact List.nil_sublist _

/-- An increment lets a book take the rows that count for it, or loses it on one of them. -/
theorem increment_takes {b : Book} (hb : bs.list[i]? = some b) (x : Located) (mode : Mode) :
    ∃ b', (bs.applyIncrement x.message x.layout mode).2.list[i]? = some b' ∧
      (i ∉ (bs.applyIncrement x.message x.layout mode).1 ∧
          b.Takes mode (bs.rowsFor mode i b x) b' ∨
        i ∈ (bs.applyIncrement x.message x.layout mode).1 ∧
          b.BreaksOff mode (bs.rowsFor mode i b x) b') := by
  by_cases hfor : mode.isFor i = true
  · have hprojects := projects_applyIncrement hfor x bs
    refine ⟨_, hprojects.book b hb, ?_⟩
    rw [hprojects.lost b hb]
    unfold rowsFor
    by_cases hactive : b.isActive = true
    · rw [hactive, hfor]
      rcases Book.takes_or_breaksOff hactive (hears_of_isMeant hb) mode with
        ⟨hkept, htakes⟩ | ⟨hlost, hbreaks⟩
      · exact .inl ⟨by simp [hkept], htakes⟩
      · exact .inr ⟨hlost, hbreaks⟩
    · rw [Bool.not_eq_true] at hactive
      rw [hactive, Book.takeRows_of_idle hactive]
      exact .inl ⟨by simp, .nil mode b⟩
  · rw [Bool.not_eq_true] at hfor
    obtain ⟨hkept, hlist⟩ := applyIncrement_of_not_for hfor x bs
    refine ⟨b, hlist.trans hb, .inl ⟨hkept, ?_⟩⟩
    unfold rowsFor
    rw [hfor, Bool.and_false]
    exact .nil mode b

/--
What an increment makes of one book. It leaves alone one that is idle, that no row is meant for, or
that the mode is not about. It keeps a book by the rows that are due, which carry the numbers that
follow on the book's: the number grows by as many, and the levels are what their entries make of
them. It loses a book by one row, which leaves the levels as they are, and none is taken after it.
Numbers go on modulo the size of a word, but wrap around only in a replay that starts at the largest.
-/
theorem increment_continuity {b : Book} (hb : bs.list[i]? = some b) (x : Located) (mode : Mode)
    (hbelow : ∀ y ∈ x.rows, ∀ n, y.1.rptSeqOf y.2 = some n → n.toNat < 0xFFFFFFFFFFFFFFFF) :
    ∃ b', (bs.applyIncrement x.message x.layout mode).2.list[i]? = some b' ∧
      (b.isActive = false ∨ x.rows.filter (bs.isMeant i) = [] ∨ mode.isFor i = false →
        i ∉ (bs.applyIncrement x.message x.layout mode).1 ∧ b' = b) ∧
      (i ∉ (bs.applyIncrement x.message x.layout mode).1 →
        b'.isActive = b.isActive ∧ b.Takes mode (bs.rowsFor mode i b x) b' ∧
        (mode = .steady ∨ b.rptSeq.toNat < 0xFFFFFFFFFFFFFFFF →
          Consecutive b.rptSeq.toNat (mode.due b.rptSeq (bs.rowsFor mode i b x)) ∧
          b'.rptSeq.toNat =
            b.rptSeq.toNat + (mode.due b.rptSeq (bs.rowsFor mode i b x)).length)) ∧
      (i ∈ (bs.applyIncrement x.message x.layout mode).1 →
        b.isActive = true ∧ b'.isActive = false ∧
        b.BreaksOff mode (bs.rowsFor mode i b x) b') := by
  have hnone : b.isActive = false ∨ x.rows.filter (bs.isMeant i) = [] ∨ mode.isFor i = false →
      bs.rowsFor mode i b x = [] := by
    unfold rowsFor
    rintro (h | h | h) <;> simp [h]
  obtain ⟨b', hb', ⟨hkept, htakes⟩ | ⟨hlost, hbreaks⟩⟩ := increment_takes hb x mode
  · refine ⟨b', hb', fun h => ⟨hkept, ?_⟩, fun _ => ⟨htakes.isActive, htakes, fun hexact => ?_⟩,
      fun h => absurd h hkept⟩
    · rw [hnone h] at htakes
      exact htakes.eq_of_nil
    · have hnumbers := mode.consecutive_due htakes.numbers
        (fun y hy => hbelow y ((bs.rowsFor_sublist mode i b x).subset hy)) hexact
      exact ⟨hnumbers, htakes.toNat_rptSeq hnumbers⟩
  · refine ⟨b', hb', fun h => absurd (hnone h) hbreaks.ne_nil, fun h => absurd hlost h,
      fun _ => ⟨?_, hbreaks.isActive, hbreaks⟩⟩
    by_contra hidle
    exact hbreaks.ne_nil (hnone (.inl (Bool.eq_false_iff.2 hidle)))

/-- A row that the book has taken, and the next one, which deletes the best of two bids. -/
def bidsUpdate : Located := bidsMessage 0 [bidRow 0 2 101 5, bidRow 2 3 101 0]

theorem increment_continuity_bids :
    ∃ b', (({ list := [bidsCut] } : Books).applyIncrement bidsUpdate.message bidsUpdate.layout
        .steady).2.list[0]? = some b' ∧
      b'.isActive = true ∧ bidsCut.Takes .steady bidsUpdate.rows b' ∧ b'.rptSeq.toNat = 3 := by
  have hbelow : ∀ y ∈ bidsUpdate.rows,
      (y.1.rptSeqOf y.2).all (fun n => decide (n.toNat < 0xFFFFFFFFFFFFFFFF)) = true := by
    decide +kernel
  have hb : ({ list := [bidsCut] } : Books).list[0]? = some bidsCut := rfl
  obtain ⟨b', hb', -, hkept, -⟩ := increment_continuity hb bidsUpdate .steady
    fun y hy n hn => by simpa [hn] using hbelow y hy
  obtain ⟨hactive, htakes, hexact⟩ := hkept (by decide +kernel)
  have hrows : ({ list := [bidsCut] } : Books).rowsFor .steady 0 bidsCut bidsUpdate =
      bidsUpdate.rows := by decide +kernel
  rw [hrows] at htakes hexact
  exact ⟨b', hb', hactive, htakes, (hexact (.inl rfl)).2.trans (by decide +kernel)⟩

end Books

end MarketFeed
