import MarketFeed.Proofs.BookSet.Continuity
import MarketFeed.Proofs.BookSet.Join

/-!
# The numbers that rows are expected to carry

A row is taken if its number is one more than that of its book. The sum always fits in a word while
books are kept up, since rows that are not past the book are passed over first. A replay passes
nothing over, and goes on from whatever number a snapshot gave: `BookSet.expected_in_run`. Where the
sum fits in no word, it wraps around, and the books keep that they have overflowed.
-/

namespace MarketFeed

/-! ## Counting on -/

/-- The next `n` sums of a number and one, where the number itself wraps around. -/
def countOn (number n : Nat) : List Nat := (List.range n).map fun i => (number + i) % UInt64.size + 1

theorem countOn_add (number m n : Nat) :
    countOn number (m + n) = countOn number m ++ countOn ((number + m) % UInt64.size) n := by
  unfold countOn
  rw [List.range_add, List.map_append, List.map_map]
  congr 1
  refine List.map_congr_left fun i _ => ?_
  rw [Function.comp_apply, Nat.mod_add_mod, Nat.add_assoc]

/-- The sums fit in a word as long as none of them is made of the largest word. -/
theorem countOn_le_iff {number n : Nat} (hnumber : number < UInt64.size) :
    (∀ sum ∈ countOn number n, sum ≤ UInt64.size - 1) ↔ number + n < UInt64.size := by
  simp only [countOn, List.mem_map, List.mem_range, forall_exists_index, and_imp,
    forall_apply_eq_imp_iff₂, UInt64.size] at hnumber ⊢
  constructor
  · intro h
    by_contra hover
    have hlast := h (0xFFFFFFFFFFFFFFFF - number) (by omega)
    omega
  · intro h i hi
    omega

/-- One of these sums fits in no word. -/
def Overflow (sums : List Nat) : Prop := ∃ sum ∈ sums, UInt64.size ≤ sum

theorem not_overflow_nil : ¬ Overflow [] := by simp [Overflow]

theorem overflow_append {sums later : List Nat} :
    Overflow (sums ++ later) ↔ Overflow sums ∨ Overflow later := by
  simp only [Overflow, List.mem_append, or_and_right, exists_or]

/-! ## One book -/

namespace Book

variable {b : Book} {mode : Books.Mode} {x : RowLayout × Row} {sum : Nat}

/-- The number that a row is expected to carry, as an exact sum, if the row is asked for it. -/
def expected? (b : Book) (mode : Books.Mode) (x : RowLayout × Row) : Option Nat :=
  if b.isActive && b.hears x then
    match x.1.rptSeqOf x.2 with
    | none => none
    | some n => if mode = .steady ∧ n ≤ b.rptSeq then none else some (b.rptSeq.toNat + 1)
  else none

theorem judge_eq (b : Book) (mode : Books.Mode) (x : RowLayout × Row) :
    Books.judge b x.1 mode x.2 =
      if b.isActive && b.hears x then
        match x.1.rptSeqOf x.2 with
        | none => .lost
        | some n =>
          if mode = .steady ∧ n ≤ b.rptSeq then .skip
          else if n = b.rptSeq + 1 then .next n else .lost
      else .skip := by
  have hother : (x.1.tradingSessionOf x.2).any (!b.acceptsSession ·) = !b.hears x := by
    unfold hears
    cases x.1.tradingSessionOf x.2 <;> simp
  unfold Books.judge
  rw [hother]
  cases b.isActive <;> cases b.hears x <;> rfl

/-- A row that is asked for a number is judged by it, modulo the size of a word. -/
theorem judge_of_expected (h : b.expected? mode x = some sum) :
    b.isActive = true ∧ sum = b.rptSeq.toNat + 1 ∧ ∃ n, x.1.rptSeqOf x.2 = some n ∧
      Books.judge b x.1 mode x.2 = if n.toNat = sum % UInt64.size then .next n else .lost := by
  rw [judge_eq]
  unfold expected? at h
  split at h
  · next hmeant =>
    rw [if_pos hmeant]
    split at h
    · cases h
    · next n hn =>
      split at h
      · cases h
      · next hdue =>
        obtain rfl := Option.some.inj h
        rw [if_neg hdue]
        refine ⟨(Bool.and_eq_true_iff.1 hmeant).1, rfl, n, hn, ?_⟩
        simp [← UInt64.toNat_inj]
  · cases h

/-- A row that is asked for no number is passed over, or the book is lost by it. -/
theorem judge_of_not_expected (h : b.expected? mode x = none) :
    Books.judge b x.1 mode x.2 = .skip ∨ Books.judge b x.1 mode x.2 = .lost := by
  rw [judge_eq]
  unfold expected? at h
  split at h
  · next hmeant =>
    rw [if_pos hmeant]
    split at h
    · exact .inr rfl
    · next n hn =>
      split at h
      · next hbehind => exact .inl (if_pos hbehind)
      · cases h
  · next hmeant => exact .inl (if_neg hmeant)

/-- A row that is not passed over is asked for a number, if it carries one. -/
theorem expected?_of_judge (h : Books.judge b x.1 mode x.2 ≠ .skip) :
    b.expected? mode x = (x.1.rptSeqOf x.2).map fun _ => b.rptSeq.toNat + 1 := by
  rw [judge_eq] at h
  unfold expected?
  split at h
  · next hmeant =>
    rw [if_pos hmeant]
    split at h
    · next hnone => rw [hnone]; rfl
    · next n hn =>
      split at h
      · exact (h rfl).elim
      · next hdue => rw [hn, if_neg hdue]; rfl
  · exact (h rfl).elim

/-- Rows that books are kept up with are past them, so there is room for the sum. -/
theorem expected?_steady_le (h : b.expected? .steady x = some sum) : sum ≤ UInt64.size - 1 := by
  unfold expected? at h
  split at h
  · split at h
    · cases h
    · next n hn =>
      split at h
      · cases h
      · next hdue =>
        have hlt := n.toNat_lt
        simp only [true_and, UInt64.not_le, UInt64.lt_iff_toNat_lt] at hdue
        have hsum := Option.some.inj h
        rw [UInt64.size]
        omega
  · cases h

/-- A row that is asked for no number leaves the book as it is, or idle. -/
theorem takeRow_of_not_expected (h : b.expected? mode x = none)
    (hactive : (b.takeRow mode x).2.isActive = true) : (b.takeRow mode x).2 = b := by
  unfold takeRow at hactive ⊢
  rcases judge_of_not_expected h with hskip | hlost
  · rw [hskip]
  · rw [hlost] at hactive
    cases hactive

/-- A book that stays active over a row has the number that the row was asked for. -/
theorem takeRow_of_expected (h : b.expected? mode x = some sum)
    (hactive : (b.takeRow mode x).2.isActive = true) :
    (b.takeRow mode x).2.rptSeq.toNat = sum % UInt64.size := by
  obtain ⟨-, -, n, -, hjudge⟩ := judge_of_expected h
  unfold takeRow at hactive ⊢
  rw [hjudge] at hactive ⊢
  by_cases hn : n.toNat = sum % UInt64.size
  · rw [if_pos hn] at hactive ⊢
    have hkeeps := (b.keeps_advance n (x.1.bookEntry x.2 false)).rptSeq
    dsimp only at hactive ⊢
    rcases hadvance : b.advance n (x.1.bookEntry x.2 false) with ⟨result, advanced⟩
    rw [hadvance] at hkeeps
    rw [← hn]
    cases result <;> exact congrArg UInt64.toNat hkeeps
  · rw [if_neg hn] at hactive
    cases hactive

end Book

namespace Books

variable {bs : Books} {target : Nat} {b : Book} {mode : Mode}

/-! ## Rows of all books -/

/-- The number that a row is expected to carry by the book that it names. -/
def expectedOfRow (l : RowLayout) (mode : Mode) (bs : Books) (row : Row) : Option Nat :=
  match bs.find? (l.securityIdOf row) (l.symbolOf row) with
  | none => none
  | some i => (if mode.isFor i then bs.list[i]? else none).bind (·.expected? mode (l, row))

/-- The numbers that rows are expected to carry, along `applyRows`. -/
def expectedOfRows (l : RowLayout) (mode : Mode) : List Row → Books → List Nat
  | [], _ => []
  | row :: rows, bs =>
    (expectedOfRow l mode bs row).toList ++ expectedOfRows l mode rows (applyRow l mode bs row).2

/-- The numbers that the rows of an increment are expected to carry, along `applyIncrement`. -/
def expectedOfIncrement (bs : Books) (m : Message) (l : MessageLayout) (mode : Mode) : List Nat :=
  match l.entriesOf m with
  | none => []
  | some g => expectedOfRows l.row mode g.rows bs

theorem applyRows_cons (l : RowLayout) (mode : Mode) (row : Row) (rows : List Row) (bs : Books) :
    (applyRows l mode (row :: rows) bs).2 =
      (applyRows l mode rows (applyRow l mode bs row).2).2 := by
  rw [applyRows]
  rcases applyRow l mode bs row with ⟨lost, bs'⟩
  cases lost <;> rfl

theorem expectedOfRow_eq_some {l : RowLayout} {row : Row} {sum : Nat}
    (h : expectedOfRow l mode bs row = some sum) :
    ∃ i b, bs.find? (l.securityIdOf row) (l.symbolOf row) = some i ∧ mode.isFor i = true ∧
      bs.list[i]? = some b ∧ b.expected? mode (l, row) = some sum := by
  unfold expectedOfRow at h
  split at h
  · cases h
  · next i hfind =>
    obtain ⟨b, hb, hexpected⟩ := Option.bind_eq_some_iff.1 h
    split at hb
    · next hfor => exact ⟨i, b, hfind, hfor, hb, hexpected⟩
    · cases hb

theorem expectedOfRow_of_named {l : RowLayout} {row : Row} {i : Nat}
    (hfind : bs.find? (l.securityIdOf row) (l.symbolOf row) = some i)
    (hfor : mode.isFor i = true) (hb : bs.list[i]? = some b) :
    expectedOfRow l mode bs row = b.expected? mode (l, row) := by
  simp [expectedOfRow, hfind, hfor, hb]

theorem overflowed_compare (bs : Books) (b : Book) (l : RowLayout) (row : Row) :
    (bs.compare b l row).overflowed = true ↔
      bs.overflowed = true ∨ Overflow ((l.rptSeqOf row).map fun _ => b.rptSeq.toNat + 1).toList := by
  have hlargest : b.rptSeq = 0xFFFFFFFFFFFFFFFF ↔ UInt64.size ≤ b.rptSeq.toNat + 1 := by
    have hlt := b.rptSeq.toNat_lt
    rw [← UInt64.toNat_inj, UInt64.size]
    change b.rptSeq.toNat = 18446744073709551615 ↔ _
    omega
  cases hn : l.rptSeqOf row <;> simp [compare, Overflow, hn, hlargest]

/-- The books overflow by a row if the number that it is expected to carry fits in no word. -/
theorem overflowed_applyRow (l : RowLayout) (mode : Mode) (bs : Books) (row : Row) :
    (applyRow l mode bs row).2.overflowed = true ↔
      bs.overflowed = true ∨ Overflow (expectedOfRow l mode bs row).toList := by
  by_cases hnamed : ∃ i b, bs.find? (l.securityIdOf row) (l.symbolOf row) = some i ∧
      mode.isFor i = true ∧ bs.list[i]? = some b
  · obtain ⟨i, b, hfind, hfor, hb⟩ := hnamed
    have hcompare := bs.overflowed_compare b l row
    rw [expectedOfRow_of_named hfind hfor hb]
    cases hjudge : judge b l mode row with
    | skip =>
      have hnone : b.expected? mode (l, row) = none := by
        cases hsum : b.expected? mode (l, row) with
        | none => rfl
        | some sum =>
          obtain ⟨-, -, n, -, hjudge'⟩ := Book.judge_of_expected hsum
          rw [hjudge] at hjudge'
          split at hjudge' <;> cases hjudge'
      rw [applyRow_skip hfind hfor hb hjudge, hnone]
      exact (or_iff_left not_overflow_nil).symm
    | lost =>
      rw [applyRow_lost hfind hfor hb hjudge, Book.expected?_of_judge (by simp [hjudge])]
      exact hcompare
    | next rptSeq =>
      rw [applyRow_next hfind hfor hb hjudge, Book.expected?_of_judge (by simp [hjudge])]
      rcases b.advance rptSeq (l.bookEntry row false) with ⟨result, advanced⟩
      cases result <;> exact hcompare
  · have hnone : expectedOfRow l mode bs row = none := by
      rw [Option.eq_none_iff_forall_ne_some]
      intro sum hsum
      obtain ⟨i, b, hfind, hfor, hb, -⟩ := expectedOfRow_eq_some hsum
      exact hnamed ⟨i, b, hfind, hfor, hb⟩
    rw [(named_or_applyRow l mode bs row).resolve_left hnamed, hnone]
    exact (or_iff_left not_overflow_nil).symm

theorem overflowed_applyRows (l : RowLayout) (mode : Mode) (rows : List Row) (bs : Books) :
    (applyRows l mode rows bs).2.overflowed = true ↔
      bs.overflowed = true ∨ Overflow (expectedOfRows l mode rows bs) := by
  induction rows generalizing bs with
  | nil => exact (or_iff_left not_overflow_nil).symm
  | cons row rows ih =>
    rw [applyRows_cons, ih, overflowed_applyRow, expectedOfRows, overflow_append, or_assoc]

theorem overflowed_applyIncrement (bs : Books) (m : Message) (l : MessageLayout) (mode : Mode) :
    (bs.applyIncrement m l mode).2.overflowed = true ↔
      bs.overflowed = true ∨ Overflow (bs.expectedOfIncrement m l mode) := by
  unfold applyIncrement expectedOfIncrement
  cases l.entriesOf m with
  | none => exact (or_iff_left not_overflow_nil).symm
  | some g => exact overflowed_applyRows l.row mode g.rows bs

/-- Whatever the rows are, books that are kept up expect numbers that fit in a word. -/
theorem expectedOfRows_steady_le (l : RowLayout) (rows : List Row) (bs : Books) :
    ∀ sum ∈ expectedOfRows l .steady rows bs, sum ≤ UInt64.size - 1 := by
  induction rows generalizing bs with
  | nil => simp [expectedOfRows]
  | cons row rows ih =>
    intro sum hsum
    rcases List.mem_append.1 hsum with hsum | hsum
    · obtain ⟨i, b, -, -, -, hexpected⟩ := expectedOfRow_eq_some (Option.mem_toList.1 hsum)
      exact Book.expected?_steady_le hexpected
    · exact ih _ sum hsum

theorem expectedOfIncrement_steady_le (bs : Books) (m : Message) (l : MessageLayout) :
    ∀ sum ∈ bs.expectedOfIncrement m l .steady, sum ≤ UInt64.size - 1 := by
  unfold expectedOfIncrement
  cases l.entriesOf m with
  | none => simp
  | some g => exact expectedOfRows_steady_le l.row g.rows bs

/--
The numbers that the book at a position expects, from this book on to those books: they count on
from its own as long as it is active, and there are none once it is not.
-/
structure Counts (target : Nat) (b : Book) (sums : List Nat) (after : Books) : Prop where
  counted : sums = countOn b.rptSeq.toNat sums.length
  idle : b.isActive = false → sums = []
  book : ∃ b', after.list[target]? = some b' ∧ (b'.isActive = true →
    b.isActive = true ∧ b'.rptSeq.toNat = (b.rptSeq.toNat + sums.length) % UInt64.size)

namespace Counts

variable {sums later : List Nat} {mid after : Books}

theorem refl (hb : after.list[target]? = some b) : Counts target b [] after :=
  ⟨rfl, fun _ => rfl, b, hb, fun hactive =>
    ⟨hactive, (Nat.mod_eq_of_lt b.rptSeq.toNat_lt).symm⟩⟩

theorem append (h : Counts target b sums mid)
    (h' : ∀ b', mid.list[target]? = some b' → Counts target b' later after) :
    Counts target b (sums ++ later) after := by
  obtain ⟨b', hb', hafter⟩ := h.book
  obtain ⟨b'', hb'', hlater⟩ := (h' b' hb').book
  have hlaterCounted := (h' b' hb').counted
  by_cases hactive : b'.isActive = true
  · obtain ⟨hb, hnumber⟩ := hafter hactive
    refine ⟨?_, fun hidle => ?_, b'', hb'', fun hstill => ⟨hb, ?_⟩⟩
    · rw [List.length_append, countOn_add, ← h.counted, ← hnumber, ← hlaterCounted]
    · rw [hidle] at hb
      cases hb
    · rw [(hlater hstill).2, hnumber, Nat.mod_add_mod, List.length_append, Nat.add_assoc]
  · obtain rfl := (h' b' hb').idle (Bool.eq_false_iff.2 hactive)
    rw [List.append_nil]
    exact ⟨h.counted, h.idle, b'', hb'', fun hstill => absurd (hlater hstill).1 hactive⟩

end Counts

theorem counts_applyRow {l : RowLayout} {row : Row} (hb : bs.list[target]? = some b) :
    Counts target b (expectedOfRow l (.replay target) bs row).toList
      (applyRow l (.replay target) bs row).2 := by
  have htarget {i : Nat} (hfor : (Mode.replay target).isFor i = true) : i = target := by
    rw [Mode.isFor, beq_iff_eq] at hfor
    exact hfor.symm
  cases hsum : expectedOfRow l (.replay target) bs row with
  | none =>
    rcases named_or_applyRow l (.replay target) bs row with ⟨i, c, hfind, hfor, hc⟩ | hnothing
    · rw [expectedOfRow_of_named hfind hfor hc] at hsum
      obtain rfl := htarget hfor
      obtain rfl := Option.some.inj (hb.symm.trans hc)
      have hafter := ((applyRow_of_named hfind hfor hb).2 i).trans (if_pos rfl)
      refine ⟨rfl, fun _ => rfl, _, hafter, fun hactive => ?_⟩
      have hsame := Book.takeRow_of_not_expected hsum hactive
      rw [hsame] at hactive ⊢
      exact ⟨hactive, (Nat.mod_eq_of_lt b.rptSeq.toNat_lt).symm⟩
    · rw [hnothing]
      exact .refl hb
  | some sum =>
    obtain ⟨i, c, hfind, hfor, hc, hexpected⟩ := expectedOfRow_eq_some hsum
    obtain rfl := htarget hfor
    obtain rfl := Option.some.inj (hb.symm.trans hc)
    obtain ⟨hactive, rfl, -⟩ := Book.judge_of_expected hexpected
    have hafter := ((applyRow_of_named hfind hfor hb).2 i).trans (if_pos rfl)
    refine ⟨?_, fun hidle => ?_, _, hafter,
      fun hstill => ⟨hactive, Book.takeRow_of_expected hexpected hstill⟩⟩
    · have hlt := b.rptSeq.toNat_lt
      simp [countOn, Nat.mod_eq_of_lt hlt]
    · rw [hactive] at hidle
      cases hidle

theorem counts_applyRows (l : RowLayout) (rows : List Row) (hb : bs.list[target]? = some b) :
    Counts target b (expectedOfRows l (.replay target) rows bs)
      (applyRows l (.replay target) rows bs).2 := by
  induction rows generalizing bs b with
  | nil => exact .refl hb
  | cons row rows ih =>
    rw [applyRows_cons]
    exact (counts_applyRow hb).append fun b' hb' => ih hb'

theorem counts_applyIncrement (m : Message) (l : MessageLayout) (hb : bs.list[target]? = some b) :
    Counts target b (bs.expectedOfIncrement m l (.replay target))
      (bs.applyIncrement m l (.replay target)).2 := by
  unfold expectedOfIncrement applyIncrement
  cases l.entriesOf m with
  | none => exact .refl hb
  | some g => exact counts_applyRows l.row g.rows hb

end Books

namespace BookSet

/-! ## Runs -/

/-- The numbers that the rows of increments are expected to carry, along `replay`. -/
def expectedOfReplay (target : Nat) (last : UInt64) : List Located → Books → List Nat
  | [], _ => []
  | located :: rest, bs =>
    if (located.layout.seqNumOf located.message).any (· ≤ last) then
      expectedOfReplay target last rest bs
    else
      let (lost, after) := bs.applyIncrement located.message located.layout (.replay target)
      bs.expectedOfIncrement located.message located.layout (.replay target) ++
        if lost.contains target then [] else expectedOfReplay target last rest after

/-- The numbers that rows are expected to carry by a move. -/
def Move.expected (set : BookSet) : Move → List Nat
  | .applied located =>
    set.books.expectedOfIncrement located.message located.layout .steady
  | .replayed target last buffered => expectedOfReplay target last buffered set.books
  | _ => []

theorem counts_replay {target : Nat} {last : UInt64} {buffered : List Located} {bs : Books}
    {b : Book} (hb : bs.list[target]? = some b) :
    Books.Counts target b (expectedOfReplay target last buffered bs)
      (replay target last buffered bs).2 := by
  induction buffered generalizing bs b with
  | nil => exact .refl hb
  | cons located rest ih =>
    have hcounts := Books.counts_applyIncrement located.message located.layout hb
    unfold expectedOfReplay replay
    split
    · exact ih hb
    · rcases happly : bs.applyIncrement located.message located.layout (.replay target)
        with ⟨lost, after⟩
      rw [happly] at hcounts
      dsimp only
      split
      · rwa [List.append_nil]
      · exact hcounts.append fun b' hb' => ih hb'

/-! ## Where the books overflow -/

theorem overflowed_replay (target : Nat) (last : UInt64) (buffered : List Located) (bs : Books) :
    (replay target last buffered bs).2.overflowed = true ↔
      bs.overflowed = true ∨ Overflow (expectedOfReplay target last buffered bs) := by
  induction buffered generalizing bs with
  | nil => exact (or_iff_left not_overflow_nil).symm
  | cons located rest ih =>
    have hone := bs.overflowed_applyIncrement located.message located.layout (.replay target)
    unfold expectedOfReplay replay
    split
    · exact ih bs
    · rcases happly : bs.applyIncrement located.message located.layout (.replay target)
        with ⟨lost, after⟩
      rw [happly] at hone
      dsimp only
      split
      · rwa [List.append_nil]
      · rw [overflow_append, ← or_assoc, ← hone]
        exact ih after

theorem overflowed_run (set : BookSet) (m : Move) :
    (m.run set).books.overflowed = true ↔
      set.books.overflowed = true ∨ Overflow (m.expected set) := by
  have hsame : set.books.overflowed = true ↔ set.books.overflowed = true ∨ Overflow [] :=
    (or_iff_left not_overflow_nil).symm
  cases m with
  | applied located => exact set.books.overflowed_applyIncrement _ _ .steady
  | replayed target last buffered => exact overflowed_replay target last buffered set.books
  | shown target located =>
    have happlies := set.books.applies_snapshot located.message located.layout target
    simp only [Move.run]
    generalize set.books.applySnapshot located.message located.layout target = step at happlies ⊢
    cases happlies <;> exact hsame
  | restarted cause => cases cause <;> exact hsame
  | _ => exact hsame

theorem overflowed_foldl (set : BookSet) (ms : List Move) :
    (ms.foldl Move.run set).books.overflowed = true ↔
      set.books.overflowed = true ∨ ∃ x ∈ journal ms set, Overflow (x.2.expected x.1) := by
  induction ms generalizing set with
  | nil => simp [journal]
  | cons m ms ih =>
    rw [List.foldl_cons, ih, overflowed_run, journal, List.exists_mem_cons_iff, or_assoc]

/-! ## Where a replay begins -/

/-- Each replay of these moves goes on from a snapshot that has just been taken. -/
def FollowsSnapshots (ms : List Move) (set : BookSet) : Prop :=
  ∀ early target last buffered later, ms = early ++ .replayed target last buffered :: later →
    ∃ before located, early = before ++ [.shown target located] ∧
      ((before.foldl Move.run set).books.applySnapshot located.message located.layout target).1 =
        .ok true

namespace FollowsSnapshots

variable {set : BookSet} {ms later : List Move}

theorem of_no_replay (h : ∀ m ∈ ms, m.isReplay = false) (set : BookSet) :
    FollowsSnapshots ms set := by
  rintro early target last buffered later rfl
  have hreplay := h (.replayed target last buffered) (by simp)
  cases hreplay

theorem append (h : FollowsSnapshots ms set)
    (h' : FollowsSnapshots later (ms.foldl Move.run set)) : FollowsSnapshots (ms ++ later) set := by
  intro early target last buffered rest heq
  rcases List.append_eq_append_iff.1 heq with ⟨more, rfl, hlater⟩ | ⟨more, rfl, hms⟩
  · obtain ⟨before, located, rfl, hshown⟩ := h' _ _ _ _ _ hlater
    refine ⟨ms ++ before, located, by rw [List.append_assoc], ?_⟩
    rwa [List.foldl_append]
  · cases more with
    | nil =>
      obtain ⟨before, located, hnil, -⟩ := h' [] _ _ _ _ hms.symm
      simp at hnil
    | cons m more =>
      obtain ⟨rfl, rfl⟩ := List.cons.inj hms
      exact h _ _ _ _ _ rfl

theorem shown_replayed {target : Nat} {located : Located}
    (h : (set.books.applySnapshot located.message located.layout target).1 = .ok true)
    (last : UInt64) (buffered : List Located) :
    FollowsSnapshots [.shown target located, .replayed target last buffered] set := by
  intro early target' last' buffered' later heq
  cases early with
  | nil => simp at heq
  | cons m early =>
    cases early with
    | nil =>
      simp only [List.cons_append, List.nil_append, List.cons.injEq, Move.replayed.injEq] at heq
      obtain ⟨rfl, ⟨rfl, -, -⟩, -⟩ := heq
      exact ⟨[], located, rfl, h⟩
    | cons m' early => simp at heq

theorem tried (set : BookSet) (target : Nat) (a : Attempt) (located : Located) :
    FollowsSnapshots (set.trySnapshotMoves target a located) set := by
  unfold trySnapshotMoves
  split
  · exact of_no_replay (by simp) set
  · next last hlast =>
    split
    · exact of_no_replay (by simp) set
    · split
      · next books hshown =>
        unfold finishJoinMoves
        have hreplayed := shown_replayed (congrArg Prod.fst hshown) last a.buffered.reverse
        refine hreplayed.append (of_no_replay ?_ _)
        split <;> simp [Move.isReplay]
      · exact of_no_replay (by simp [Move.isReplay]) set

theorem composable : TrialComposable FollowsSnapshots where
  nil := of_no_replay (by simp) _
  append := append
  aside hm := of_no_replay (by simpa using Move.isReplay_of_isApart hm) _
  tried := tried _ _ _ _
  failed _ := of_no_replay (by simp [Move.isReplay]) _
  stalled _ := of_no_replay (by simp [Move.isReplay]) _
  taken _ := of_no_replay (by simp [Move.isReplay]) _

end FollowsSnapshots

theorem followsSnapshots_moves (set : BookSet) (calls : List Call) :
    FollowsSnapshots (moves calls set) set :=
  FollowsSnapshots.composable.joins.moves_of_wiped set
    (fun s => .of_no_replay (by simp [Move.isReplay]) s) calls

/-- A book that a snapshot was taken for has the number that the snapshot gives. -/
theorem rptSeq_of_applySnapshot {bs : Books} {m : Message} {l : MessageLayout} {target : Nat}
    (h : (bs.applySnapshot m l target).1 = .ok true) :
    ∃ b, (bs.applySnapshot m l target).2.list[target]? = some b ∧
      l.rptSeqOf m = some b.rptSeq := by
  have happlies := bs.applies_snapshot m l target
  generalize bs.applySnapshot m l target = step at h happlies ⊢
  cases happlies with
  | passes hne => exact absurd h hne
  | empties => cases h
  | @fills b c g rptSeq offered rows =>
    have hkeeps := (Books.keeps_addRows rows).rptSeq
    have hput := Books.getElem?_put offered.book { c with isActive := true } target
    rw [if_pos rfl] at hput
    exact ⟨_, hput, offered.number.trans (congrArg some hkeeps.symm)⟩

/-- While books are kept up, whatever rows are asked for fits in a word. -/
theorem Move.expected_le (set : BookSet) {m : Move} (hm : m.isReplay = false) :
    ∀ sum ∈ m.expected set, sum ≤ UInt64.size - 1 := by
  cases m with
  | applied located =>
    exact Books.expectedOfIncrement_steady_le set.books located.message located.layout
  | replayed target last buffered => cases hm
  | _ => simp [Move.expected]

/--
The books of a run overflow just where a row is asked for a number that fits in no word, and the
moves of the journal are all that the run does. While books are kept up, that number always fits. A
replay goes on from the number of a snapshot that has just been taken, one by one, so all of them fit
if and only if the number and as many rows as were asked do; beyond that the number wraps around.
-/
theorem expected_in_run (set : BookSet) (calls : List Call) :
    (moves calls set).foldl Move.run set = calls.foldl Call.run set ∧
    ((calls.foldl Call.run set).books.overflowed = true ↔ set.books.overflowed = true ∨
      ∃ x ∈ journal (moves calls set) set, ∃ sum ∈ x.2.expected x.1, UInt64.size ≤ sum) ∧
    ∀ early m later, moves calls set = early ++ m :: later →
      let sums := m.expected (early.foldl Move.run set)
      (m.isReplay = false → ∀ sum ∈ sums, sum ≤ UInt64.size - 1) ∧
      ∀ target last buffered, m = .replayed target last buffered →
        ∃ before located rptSeq, early = before ++ [.shown target located] ∧
          ((before.foldl Move.run set).books.applySnapshot located.message located.layout
            target).1 = .ok true ∧
          located.layout.rptSeqOf located.message = some rptSeq ∧
          sums = countOn rptSeq.toNat sums.length ∧
          ((∀ sum ∈ sums, sum ≤ UInt64.size - 1) ↔ rptSeq.toNat + sums.length < UInt64.size) := by
  have hmoves := set.foldl_moves calls
  refine ⟨hmoves, ?_, fun early m later h => ⟨Move.expected_le _, ?_⟩⟩
  · rw [← hmoves]
    exact set.overflowed_foldl (moves calls set)
  · rintro target last buffered rfl
    obtain ⟨before, located, rfl, htaken⟩ := followsSnapshots_moves set calls _ _ _ _ _ h
    obtain ⟨b, hb, hrptSeq⟩ := rptSeq_of_applySnapshot htaken
    have hbooks : ((before ++ [Move.shown target located]).foldl Move.run set).books.list[target]? =
        some b := by
      rw [List.foldl_append]
      exact hb
    generalize hsums : Move.expected _ _ = sums
    have hcounted : sums = countOn b.rptSeq.toNat sums.length :=
      hsums ▸ (counts_replay hbooks).counted
    refine ⟨before, located, b.rptSeq, rfl, htaken, hrptSeq, hcounted, ?_⟩
    rw [hcounted, countOn_le_iff b.rptSeq.toNat_lt, ← hcounted]

/-- One increment, and a snapshot up to the one before it that gives the book this number. -/
def numberedNetwork (rptSeq : List UInt8) (row : UInt8) : Network
  | .file "increments" => some [.bytes [192, 129, 129, 129, 133, row, 176, 128, 128, 0, 229, 138]]
  | .file "snapshots" => some [
    .bytes ([192, 130, 129, 128, 133] ++ rptSeq ++ [129, 176, 128, 0, 228, 138])]
  | _ => none

def joinCalls : List Call := [.openAll, .subscribe 5]

def numberedSet : BookSet :=
  (create (numberedNetwork [135] 136) marketConfig market).toOption.get rfl

theorem expected_in_run_replayed :
    ∃ early target last buffered later,
      moves joinCalls numberedSet = early ++ .replayed target last buffered :: later ∧
      let sums := Move.expected (early.foldl Move.run numberedSet) (.replayed target last buffered)
      ∃ before located rptSeq, early = before ++ [.shown target located] ∧
        located.layout.rptSeqOf located.message = some rptSeq ∧
        sums = countOn rptSeq.toNat sums.length ∧
        ((∀ sum ∈ sums, sum ≤ UInt64.size - 1) ↔ rptSeq.toNat + sums.length < UInt64.size) := by
  have hany : (moves joinCalls numberedSet).any Move.isReplay = true := by decide +kernel
  obtain ⟨m, hm, hreplay⟩ := List.any_eq_true.1 hany
  obtain ⟨early, later, hmoves⟩ := List.append_of_mem hm
  cases m with
  | replayed target last buffered =>
    obtain ⟨before, located, rptSeq, hearly, -, hrptSeq, hsums, hfit⟩ :=
      ((expected_in_run numberedSet joinCalls).2.2 _ _ _ hmoves).2 target last buffered rfl
    exact ⟨early, target, last, buffered, later, hmoves, before, located, rptSeq, hearly, hrptSeq,
      hsums, hfit⟩
  | _ => cases hreplay

/-- The largest word, as a snapshot sends it. -/
def largest : List UInt8 := [1, 127, 127, 127, 127, 127, 127, 127, 127, 255]

def wrappedSet : BookSet :=
  (create (numberedNetwork largest 128) marketConfig market).toOption.get rfl

/--
The snapshot gives the book the largest number. The row of the increment past it is asked for a
number that no word holds: the books overflow, and as the row carries zero, it is taken.
-/
theorem expected_overflows :
    create (numberedNetwork largest 128) marketConfig market = .ok wrappedSet ∧
      wrappedSet.books.overflowed = false ∧
      ((journal (moves joinCalls wrappedSet) wrappedSet).flatMap fun (set, m) => m.expected set) =
        [UInt64.size] ∧
      (joinCalls.foldl Call.run wrappedSet).books.overflowed = true ∧
      ((joinCalls.foldl Call.run wrappedSet).books.list.map fun b => (b.isActive, b.rptSeq, b.bids)) =
        [(true, 0, [⟨101, 10⟩, ⟨100, 10⟩])] :=
  ⟨rfl, rfl, by decide +kernel⟩

end BookSet

end MarketFeed
