import MarketFeed.Proofs.BookSet.Continuity

/-!
# A message that comes again changes nothing

A book that has seen a row in steady state has its number behind it, or is lost. Numbers only grow
and lost books stay lost, so the book passes the row over from then on, and a message that is
delivered a second time, at once or later, is without effect: `Books.increment_idempotent`.
-/

namespace MarketFeed

namespace Book

variable {b : Book} {x y : RowLayout × Row} {xs : List (RowLayout × Row)}

/-- The book has nothing more to take from a row that is meant for it. -/
def Passed (b : Book) (x : RowLayout × Row) : Prop :=
  b.isActive = false ∨ ∃ n, x.1.rptSeqOf x.2 = some n ∧ n ≤ b.rptSeq

theorem Passed.judge (h : b.Passed x) : Books.judge b x.1 .steady x.2 = .skip := by
  unfold Books.judge
  rcases h with hidle | ⟨n, hnumber, hbehind⟩
  · simp [hidle]
  · simp [hnumber, hbehind]

/-- Whatever an active book does with a row, the row is behind it then. -/
theorem Steps.passed {step : Bool × Book} (h : b.Steps .steady x step) : step.2.Passed x := by
  cases h with
  | passes number _ behind => exact .inr ⟨_, number, behind⟩
  | takes number _ _ => exact .inr ⟨_, number, UInt64.le_refl _⟩
  | breaks h => exact .inl h.isActive

/-- What is behind a book stays behind it. -/
theorem Steps.keeps_passed {step : Bool × Book} (h : b.Steps .steady x step) (hy : b.Passed y) :
    step.2.Passed y := by
  cases h with
  | passes _ _ _ => exact hy
  | @takes c _ due entered =>
    rcases hy with hidle | ⟨n, hnumber, hbehind⟩
    · exact .inl ((isActive_enter entered).trans hidle)
    · exact .inr ⟨n, hnumber, UInt64.le_trans hbehind (UInt64.le_of_lt (due rfl))⟩
  | breaks h => exact .inl h.isActive

theorem passed_takeRow (hhears : b.hears x = true) : (b.takeRow .steady x).2.Passed x := by
  by_cases hactive : b.isActive = true
  · exact (steps_takeRow hactive hhears .steady).passed
  · have hidle := Bool.eq_false_iff.2 hactive
    rw [takeRow_of_idle hidle]
    exact .inl hidle

theorem Passed.takeRow (hhears : b.hears x = true) (hy : b.Passed y) :
    (b.takeRow .steady x).2.Passed y := by
  by_cases hactive : b.isActive = true
  · exact (steps_takeRow hactive hhears .steady).keeps_passed hy
  · rw [takeRow_of_idle (Bool.eq_false_iff.2 hactive)]
    exact hy

theorem Passed.takeRows (hhears : ∀ x ∈ xs, b.hears x = true) (hy : b.Passed y) :
    (Book.takeRows .steady xs b).2.Passed y := by
  induction xs generalizing b with
  | nil => exact hy
  | cons x xs ih =>
    exact ih (hears_takeRow hhears .steady) (hy.takeRow (hhears x (List.mem_cons_self ..)))

theorem passed_takeRows (hhears : ∀ x ∈ xs, b.hears x = true) (hy : y ∈ xs) :
    (takeRows .steady xs b).2.Passed y := by
  induction xs generalizing b with
  | nil => cases hy
  | cons x xs ih =>
    have hlater := hears_takeRow hhears .steady
    simp only [takeRows]
    rcases List.mem_cons.1 hy with rfl | hy
    · exact (passed_takeRow (hhears y (List.mem_cons_self ..))).takeRows hlater
    · exact ih hlater hy

end Book

namespace Books

variable {bs : Books} {mode : Mode}

/-- Every book that a row is meant for has it behind it. -/
def Passed (bs : Books) (x : RowLayout × Row) : Prop :=
  ∀ i b, bs.list[i]? = some b → bs.isMeant i x = true → b.Passed x

theorem Passed.applyRow {l : RowLayout} {row : Row} (h : bs.Passed (l, row)) :
    applyRow l .steady bs row = (none, bs) := by
  rcases named_or_applyRow l .steady bs row with ⟨i, b, hfind, hfor, hb⟩ | hnothing
  · refine applyRow_skip hfind hfor hb ?_
    by_cases hhears : b.hears (l, row) = true
    · exact (h i b hb (by simp [isMeant, hfind, hb, hhears])).judge
    · exact Book.judge_of_not_hears (x := (l, row)) (Bool.eq_false_iff.2 hhears) .steady
  · exact hnothing

theorem applyRows_of_passed {l : RowLayout} {rows : List Row}
    (h : ∀ row ∈ rows, bs.Passed (l, row)) : applyRows l .steady rows bs = ([], bs) := by
  induction rows with
  | nil => rfl
  | cons row rows ih =>
    simp only [applyRows, (h row (List.mem_cons_self ..)).applyRow]
    exact ih fun row' hrow => h row' (List.mem_cons_of_mem row hrow)

theorem applyIncrement_of_passed {x : Located} (h : ∀ y ∈ x.rows, bs.Passed y) :
    bs.applyIncrement x.message x.layout .steady = ([], bs) := by
  unfold Located.rows at h
  unfold applyIncrement
  cases hentries : x.layout.entriesOf x.message with
  | none => rfl
  | some g =>
    rw [hentries] at h
    exact applyRows_of_passed fun row hrow => h _ (List.mem_map_of_mem hrow)

/-- What messages carry is behind every book once they have been applied. -/
theorem passed_applyIncrements (bs : Books) (xs : List Located) :
    ∀ y ∈ xs.flatMap Located.rows, (applyIncrements .steady xs bs).2.Passed y := by
  intro y hy i b' hb' hmeant
  have hprojects := @projects_applyIncrements .steady i rfl xs bs
  rw [isMeant_congr hprojects.terms] at hmeant
  cases hb : bs.list[i]? with
  | none => simp [isMeant, hb] at hmeant
  | some b =>
    rw [hprojects.book b hb] at hb'
    obtain rfl := Option.some.inj hb'
    exact Book.passed_takeRows (hears_of_isMeant hb) (List.mem_filter.2 ⟨hy, hmeant⟩)

/--
A message that has been applied in steady state does nothing when it comes again, at once or after
others: it loses no book, and leaves every book and every mark as it is.
-/
theorem increment_idempotent (bs : Books) (x : Located) (later : List Located) :
    let once := (bs.applyIncrement x.message x.layout .steady).2
    (applyIncrements .steady later once).2.applyIncrement x.message x.layout .steady =
      ([], (applyIncrements .steady later once).2) := by
  refine applyIncrement_of_passed fun y hy => ?_
  exact passed_applyIncrements bs (x :: later) y
    (List.mem_flatMap.2 ⟨x, List.mem_cons_self .., hy⟩)

end Books

end MarketFeed
