import MarketFeed.Proofs.BookSet.Rows
import Mathlib.Data.List.Forall2

/-!
# A snapshot stands for the increments before it

A book that has taken a stream of rows, and a book that a snapshot has set up in the middle of the
stream and that replays the rest, come to the same. Both keep their levels in order, so the levels
that a snapshot lists can be put back in any order.
-/

namespace MarketFeed

/-- The rows carry the numbers that follow on a number. -/
def Consecutive : Nat → List (RowLayout × Row) → Prop
  | _, [] => True
  | number, x :: xs =>
    (x.1.rptSeqOf x.2).map UInt64.toNat = some (number + 1) ∧ Consecutive (number + 1) xs

instance decidableConsecutive : (number : Nat) → (xs : List (RowLayout × Row)) →
    Decidable (Consecutive number xs)
  | _, [] => .isTrue trivial
  | number, _ :: xs =>
    have := decidableConsecutive (number + 1) xs
    inferInstanceAs (Decidable (_ ∧ _))

theorem Consecutive.append {number : Nat} {xs ys : List (RowLayout × Row)}
    (h : Consecutive number (xs ++ ys)) :
    Consecutive number xs ∧ Consecutive (number + xs.length) ys := by
  induction xs generalizing number with
  | nil => exact ⟨trivial, h⟩
  | cons x xs ih =>
    obtain ⟨hxs, hys⟩ := ih h.2
    rw [Nat.add_right_comm] at hys
    exact ⟨⟨h.1, hxs⟩, hys⟩

theorem RowLayout.level_bookEntry {l : RowLayout} {row : Row} {isSnapshot : Bool} {e : BookEntry}
    (hlevel : l.levelOf row = .ok none) (h : l.bookEntry row isSnapshot = .ok e) :
    e.level = none := by
  unfold bookEntry at h
  simp only [bind, Except.bind, hlevel] at h
  split at h
  · cases h
  · split at h
    · cases h
    · split at h
      · rw [← Except.ok.inj h]
      · split at h
        · cases h
        · split at h
          · cases h
          · rw [← Except.ok.inj h]

theorem RowLayout.action_bookEntry {l : RowLayout} {row : Row} {e : BookEntry}
    (h : l.bookEntry row true = .ok e) : e.action = .new := by
  unfold bookEntry at h
  simp only [bind, Except.bind, actionOf, if_true] at h
  split at h
  · cases h
  · split at h
    · cases h
    · split at h
      · rw [← Except.ok.inj h]
      · split at h
        · cases h
        · split at h
          · cases h
          · rw [← Except.ok.inj h]

namespace Book

variable {b c : Book} {x : RowLayout × Row} {xs : List (RowLayout × Row)}

/-- Two active books that have come to the same. -/
structure InStep (b c : Book) : Prop where
  alike : b.Alike c
  rptSeq : c.rptSeq = b.rptSeq
  isActive : b.isActive = true
  isActive' : c.isActive = true

/-- A row with the next number is taken in any mode. -/
theorem judge_next (hactive : b.isActive = true) (hhears : b.hears x = true)
    (hnumber : (x.1.rptSeqOf x.2).map UInt64.toNat = some (b.rptSeq.toNat + 1)) :
    ∃ rptSeq : UInt64, rptSeq.toNat = b.rptSeq.toNat + 1 ∧
      ∀ mode, Books.judge b x.1 mode x.2 = .next rptSeq := by
  obtain ⟨rptSeq, hrptSeq, htoNat⟩ := Option.map_eq_some_iff.1 hnumber
  refine ⟨rptSeq, htoNat, fun mode => ?_⟩
  have hnext : rptSeq = b.rptSeq + 1 := by
    have := rptSeq.toNat_lt
    rw [← UInt64.toNat_inj, UInt64.toNat_add, UInt64.toNat_one]
    omega
  have hlater : ¬ rptSeq ≤ b.rptSeq := by
    rw [UInt64.le_iff_toNat_le]
    omega
  have hsession : (x.1.tradingSessionOf x.2).any (!b.acceptsSession ·) = false := by
    unfold hears at hhears
    cases hsession : x.1.tradingSessionOf x.2 with
    | none => rfl
    | some session => simpa [hsession] using hhears
  unfold Books.judge
  rw [hactive, hsession, hrptSeq]
  simp [hlater, ← hnext]

theorem Alike.advance (h : b.Alike c) (rptSeq : UInt64) (entry : Except BookError BookEntry) :
    (b.advance rptSeq entry).1 = (c.advance rptSeq entry).1 ∧
      (b.advance rptSeq entry).2.Alike (c.advance rptSeq entry).2 := by
  have hnumbered : ({ b with rptSeq } : Book).Alike { c with rptSeq } := by
    refine ⟨h.terms, fun side => ?_⟩
    have := h.levels side
    cases side <;> exact this
  cases entry with
  | error e => exact ⟨rfl, hnumbered⟩
  | ok entry => exact apply_alike hnumbered entry

theorem InStep.takeRow (h : b.InStep c) (hhears : b.hears x = true)
    (hnumber : (x.1.rptSeqOf x.2).map UInt64.toNat = some (b.rptSeq.toNat + 1))
    {mode : Books.Mode} (hkept : (b.takeRow mode x).1 = false) (mode' : Books.Mode) :
    (c.takeRow mode' x).1 = false ∧ (b.takeRow mode x).2.InStep (c.takeRow mode' x).2 ∧
      (b.takeRow mode x).2.rptSeq.toNat = b.rptSeq.toNat + 1 := by
  obtain ⟨rptSeq, htoNat, hjudge⟩ := judge_next h.isActive hhears hnumber
  obtain ⟨rptSeq', htoNat', hjudge'⟩ := judge_next h.isActive'
    ((hears_congr h.alike.terms x).symm.trans hhears) (h.rptSeq ▸ hnumber)
  obtain rfl : rptSeq' = rptSeq := by
    rw [← UInt64.toNat_inj, htoNat, htoNat', h.rptSeq]
  obtain ⟨hresult, halike⟩ := h.alike.advance rptSeq' (x.1.bookEntry x.2 false)
  have hkeeps := b.keeps_advance rptSeq' (x.1.bookEntry x.2 false)
  have hkeeps' := c.keeps_advance rptSeq' (x.1.bookEntry x.2 false)
  unfold Book.takeRow at hkept ⊢
  obtain ⟨result, b', hb⟩ : ∃ result b',
      b.advance rptSeq' (x.1.bookEntry x.2 false) = (result, b') := ⟨_, _, rfl⟩
  obtain ⟨result', c', hc⟩ : ∃ result c',
      c.advance rptSeq' (x.1.bookEntry x.2 false) = (result, c') := ⟨_, _, rfl⟩
  simp only [hjudge, hjudge', hb, hc] at hkept hresult halike hkeeps hkeeps' ⊢
  obtain rfl := hresult
  cases result with
  | error e => cases hkept
  | ok _ =>
    refine ⟨rfl, ⟨halike, ?_, hkeeps.isActive.trans h.isActive,
      hkeeps'.isActive.trans h.isActive'⟩, ?_⟩
    · exact hkeeps'.rptSeq.trans hkeeps.rptSeq.symm
    · exact (congrArg UInt64.toNat hkeeps.rptSeq).trans htoNat

/-- Rows that a book takes without being lost are taken by one in step with it, in any mode. -/
theorem InStep.takeRows (h : b.InStep c) (hhears : ∀ x ∈ xs, b.hears x = true)
    (hnumbers : Consecutive b.rptSeq.toNat xs) {mode : Books.Mode}
    (hkept : (Book.takeRows mode xs b).1 = false) (mode' : Books.Mode) :
    (Book.takeRows mode' xs c).1 = false ∧
      (Book.takeRows mode xs b).2.InStep (Book.takeRows mode' xs c).2 ∧
      (Book.takeRows mode xs b).2.rptSeq.toNat = b.rptSeq.toNat + xs.length := by
  induction xs generalizing b c with
  | nil => exact ⟨rfl, h, rfl⟩
  | cons x xs ih =>
    simp only [Book.takeRows, Bool.or_eq_false_iff] at hkept ⊢
    obtain ⟨hlost, hstep, hnumber⟩ :=
      h.takeRow (hhears x (List.mem_cons_self ..)) hnumbers.1 hkept.1 mode'
    obtain ⟨hlosts, hsteps, hlength⟩ :=
      ih hstep (hears_takeRow hhears mode) (hnumber ▸ hnumbers.2) hkept.2
    refine ⟨⟨hlost, hlosts⟩, hsteps, ?_⟩
    rw [hlength, hnumber, List.length_cons]
    omega

/-- The rows that are still ahead of an active book, none of which loses it. -/
structure Awaits (b : Book) (xs : List (RowLayout × Row)) : Prop where
  isActive : b.isActive = true
  heard : ∀ x ∈ xs, b.hears x = true
  numbers : Consecutive b.rptSeq.toNat xs
  kept : (Book.takeRows .steady xs b).1 = false

/-- Where the first rows have been taken, the others are still ahead. -/
theorem Awaits.append {ys : List (RowLayout × Row)} (h : b.Awaits (xs ++ ys)) :
    (Book.takeRows .steady xs b).2.Awaits ys := by
  have hkept := h.kept
  rw [takeRows_append, Bool.or_eq_false_iff] at hkept
  obtain ⟨hxs, hys⟩ := h.numbers.append
  have hself : b.InStep b := ⟨.refl b, rfl, h.isActive, h.isActive⟩
  obtain ⟨-, hafter, hnumber⟩ :=
    hself.takeRows (fun x hx => h.heard x (List.mem_append_left _ hx)) hxs hkept.1 .steady
  refine ⟨hafter.isActive, fun y hy => ?_, hnumber ▸ hys, hkept.2⟩
  rw [hears_congr (terms_takeRows .steady xs b)]
  exact h.heard y (List.mem_append_right _ hy)

theorem Tidy.takeRow (h : b.Tidy) (hlevel : x.1.levelOf x.2 = .ok none) (mode : Books.Mode) :
    (b.takeRow mode x).2.Tidy := by
  unfold Book.takeRow
  cases Books.judge b x.1 mode x.2 with
  | skip => exact h
  | lost => exact h.of_levels (fun side => by cases side <;> rfl) rfl
  | next rptSeq =>
    have hnumbered : ({ b with rptSeq } : Book).Tidy :=
      h.of_levels (fun side => by cases side <;> rfl) rfl
    have hadvanced : (b.advance rptSeq (x.1.bookEntry x.2 false)).2.Tidy := by
      cases hentry : x.1.bookEntry x.2 false with
      | error e => exact hnumbered
      | ok e => exact hnumbered.apply (RowLayout.level_bookEntry hlevel hentry)
    dsimp only
    rcases hadvance : b.advance rptSeq (x.1.bookEntry x.2 false) with ⟨result, b'⟩
    rw [hadvance] at hadvanced
    cases result with
    | ok _ => exact hadvanced
    | error e => exact hadvanced.of_levels (fun side => by cases side <;> rfl) rfl

/-- Rows that are all addressed by their price keep the levels in order. -/
theorem Tidy.takeRows (h : b.Tidy) (hlevels : ∀ x ∈ xs, x.1.levelOf x.2 = .ok none)
    (mode : Books.Mode) : (Book.takeRows mode xs b).2.Tidy := by
  induction xs generalizing b with
  | nil => exact h
  | cons x xs ih =>
    exact ih (h.takeRow (hlevels x (List.mem_cons_self ..)) mode) fun y hy =>
      hlevels y (List.mem_cons_of_mem x hy)

end Book

/-! ## Snapshots -/

/-- A row of a snapshot gives a level of a side by its price. -/
def RowLayout.Lists (l : RowLayout) (b : Book) (row : Row) (x : Side × PriceLevel) : Prop :=
  ∃ e price, l.bookEntry row true = .ok e ∧ e.kind.side? = some x.1 ∧ e.level = none ∧
    e.price = some price ∧ b.priceInTicks price = .ok x.2.price ∧ e.size = x.2.size

/-- Those of the levels that are of a side. -/
def onSide (side : Side) (listed : List (Side × PriceLevel)) : List PriceLevel :=
  (listed.filter fun x => x.1 == side).map Prod.snd

namespace Books

/-- Whatever order they come in, the levels of a book are put back as they were. -/
theorem addRows_listed {l : RowLayout} {rows : List Row} {listed : List (Side × PriceLevel)}
    {b c : Book} (hb : b.Tidy) (hlists : List.Forall₂ (l.Lists b) rows listed) (hc : c.Tidy)
    (hterms : c.terms = b.terms)
    (hperm : ∀ side, (c.levels side ++ onSide side listed).Perm (b.levels side)) :
    ∃ c', addRows l rows c = .ok c' ∧ b.Alike c' ∧ c'.rptSeq = c.rptSeq := by
  induction hlists generalizing c with
  | nil =>
    refine ⟨c, rfl, ⟨hterms.symm, fun side => ?_⟩, rfl⟩
    have := hperm side
    rw [onSide, List.filter_nil, List.map_nil, List.append_nil] at this
    exact (hb.ordered side).eq_of_perm (hc.ordered side) this.symm
  | @cons row x rows listed hrow _ ih =>
    obtain ⟨side, level⟩ := x
    obtain ⟨e, price, hentry, hside, hlevel, hprice, hticks, hsize⟩ := hrow
    have hown : (c.levels side ++ level :: onSide side listed).Perm (b.levels side) := by
      have := hperm side
      simpa [onSide] using this
    have hnew : level.price ∉ (c.levels side).map PriceLevel.price := by
      have hnodup := (hown.map PriceLevel.price).nodup_iff.2 (hb.ordered side).nodup
      rw [List.map_append, List.map_cons, List.nodup_append] at hnodup
      intro hmem
      exact hnodup.2.2 _ hmem _ (List.mem_cons_self ..) rfl
    have hroom : (c.levels side).length < c.depth := by
      have hdepth := Book.depth_of_terms hterms
      have hlength := hown.length_eq
      have hbounded := hb.bounded side
      rw [List.length_append, List.length_cons] at hlength
      omega
    have hcticks : c.priceInTicks price = .ok level.price := by
      rw [← hticks]
      simp only [Book.priceInTicks, Book.tick_of_terms hterms]
    obtain ⟨levels, happly, hlevels⟩ := hc.apply_new hside (RowLayout.action_bookEntry hentry)
      hlevel hprice hcticks hsize hnew hroom
    have htidy := hc.apply hlevel
    have hkeeps := c.keeps_apply e
    rw [happly] at htidy hkeeps
    have hperm' : ∀ other,
        ((({ c with isEmpty := false } : Book).withLevels side levels).levels other ++
          onSide other listed).Perm (b.levels other) := by
      intro other
      by_cases hother : other = side
      · rw [hother, Book.levels_withLevels]
        exact ((hlevels.append_right _).trans List.perm_middle.symm).trans hown
      · rw [Book.levels_withLevels_of_ne _ hother]
        have := hperm other
        rw [onSide, List.filter_cons_of_neg (by simpa using Ne.symm hother)] at this
        cases other <;> exact this
    obtain ⟨c', hrows, halike, hrptSeq⟩ := ih htidy (hkeeps.terms.trans hterms) hperm'
    refine ⟨c', ?_, halike, hrptSeq.trans hkeeps.rptSeq⟩
    have hsome : (({ c with isEmpty := false } : Book).withLevels side levels).isEmpty = false := by
      cases side <;> rfl
    exact (addRows_cons hentry happly hsome).trans hrows

/-- The message is a snapshot of the book as it is, its levels in any order. -/
structure Shows (bs : Books) (target : Nat) (b : Book) (x : Located) : Prop where
  named : bs.find? (x.layout.securityIdOf x.message) (x.layout.symbolOf x.message) = some target
  rptSeq : x.layout.rptSeqOf x.message = some b.rptSeq
  listed : ∃ g listed, x.layout.entriesOf x.message = some g ∧
    acceptsSnapshot b x.message x.layout g = true ∧
    List.Forall₂ (x.layout.row.Lists b) g.rows listed ∧
    ∀ side, (onSide side listed).Perm (b.levels side)

theorem acceptsSnapshot_congr {b c : Book} (h : b.terms = c.terms) (m : Message)
    (l : MessageLayout) (g : Group) : acceptsSnapshot b m l g = acceptsSnapshot c m l g := by
  unfold acceptsSnapshot Book.acceptsSession
  rw [Book.session_of_terms h]

/-- A snapshot of a book brings an idle one in step with it. -/
theorem applySnapshot_shown {bs : Books} {target : Nat} {b idle : Book} {x : Located}
    (hb : b.Tidy) (hactive : b.isActive = true) (hx : bs.Shows target b x)
    (hidle : bs.list[target]? = some idle) (hinactive : idle.isActive = false)
    (hterms : idle.terms = b.terms) :
    ∃ books c, bs.applySnapshot x.message x.layout target = (.ok true, books) ∧
      books.list.map Book.terms = bs.list.map Book.terms ∧
      books.list[target]? = some c ∧ b.InStep c := by
  obtain ⟨g, listed, hentries, haccepts, hlists, hperm⟩ := hx.listed
  have hempty : ∀ side, ({ idle.clear with rptSeq := b.rptSeq } : Book).levels side = [] := by
    intro side
    cases side <;> rfl
  obtain ⟨c, hrows, halike, hrptSeq⟩ := addRows_listed hb hlists (Book.tidy_of_empty hempty)
    hterms (by simpa only [hempty, List.nil_append] using hperm)
  have hset : ∀ j, ((bs.modify target fun _ => { c with isActive := true }).touch target).list[j]? =
      if target = j then some { c with isActive := true } else bs.list[j]? :=
    getElem?_put hidle { c with isActive := true }
  refine ⟨(bs.modify target fun _ => { c with isActive := true }).touch target,
    { c with isActive := true }, ?_, ?_, ?_, ?_⟩
  · rw [acceptsSnapshot_congr hterms.symm] at haccepts
    have hoffers : bs.Offers x.message x.layout target idle g b.rptSeq :=
      ⟨hx.named, hidle, hinactive, hentries, haccepts, hx.rptSeq⟩
    rw [hoffers.applySnapshot, hrows]
  · refine terms_modify fun b' hb' => ?_
    obtain rfl := Option.some.inj (hidle.symm.trans hb')
    exact halike.terms.symm.trans hterms.symm
  · rw [hset, if_pos rfl]
  · exact ⟨⟨halike.terms, fun side => (halike.levels side).trans (by cases side <;> rfl)⟩, hrptSeq,
      hactive, rfl⟩

/-! ## A stream and its cuts -/

/--
Messages whose rows for an active and empty book carry the next numbers, are addressed by price and
do not lose the book.
-/
structure Streams (bs : Books) (target : Nat) (b : Book) (xs : List Located) : Prop where
  book : bs.list[target]? = some b
  isActive : b.isActive = true
  isEmpty : ∀ side, b.levels side = []
  numbers : Consecutive b.rptSeq.toNat ((xs.flatMap Located.rows).filter (bs.isMeant target))
  byPrice : ∀ x ∈ (xs.flatMap Located.rows).filter (bs.isMeant target),
    x.1.levelOf x.2 = .ok none
  kept : target ∉ (applyIncrements .steady xs bs).1

theorem terms_of_getElem? {bs bs' : Books} (h : bs'.list.map Book.terms = bs.list.map Book.terms)
    {i : Nat} {b b' : Book} (hb' : bs'.list[i]? = some b') (hb : bs.list[i]? = some b) :
    b'.terms = b.terms := by
  have := congrArg (·[i]?) h
  simpa [hb, hb'] using this

theorem hears_of_isMeant {bs : Books} {target : Nat} {b : Book} (hb : bs.list[target]? = some b)
    {xs : List (RowLayout × Row)} : ∀ x ∈ xs.filter (bs.isMeant target), b.hears x = true := by
  intro x hx
  have := (List.mem_filter.1 hx).2
  simp only [isMeant, hb, Option.any_some, Bool.and_eq_true] at this
  exact this.2

theorem Streams.awaits {bs : Books} {target : Nat} {b : Book} {xs : List Located}
    (h : bs.Streams target b xs) :
    b.Awaits ((xs.flatMap Located.rows).filter (bs.isMeant target)) where
  isActive := h.isActive
  heard := hears_of_isMeant h.book
  numbers := h.numbers
  kept := by
    have hlost := (@projects_applyIncrements .steady target rfl xs bs).lost b h.book
    simpa using mt hlost.2 h.kept

theorem meant_take_drop (bs : Books) (target k : Nat) (xs : List Located) :
    (xs.flatMap Located.rows).filter (bs.isMeant target) =
      ((xs.take k).flatMap Located.rows).filter (bs.isMeant target) ++
        ((xs.drop k).flatMap Located.rows).filter (bs.isMeant target) := by
  rw [← List.filter_append, ← List.flatMap_append, List.take_append_drop]

/-- What a book awaits can be replayed into one that is in step with it. -/
theorem replay_of_inStep {books : Books} {target : Nat} {b c : Book} {xs : List Located}
    (h : b.Awaits ((xs.flatMap Located.rows).filter (books.isMeant target)))
    (hc : books.list[target]? = some c) (hstep : b.InStep c) :
    target ∉ (applyIncrements (.replay target) xs books).1 ∧
      ∃ joined, (applyIncrements (.replay target) xs books).2.list[target]? = some joined ∧
        (Book.takeRows .steady ((xs.flatMap Located.rows).filter (books.isMeant target)) b).2.InStep
          joined := by
  have hfor : (Mode.replay target).isFor target = true := by simp [Mode.isFor]
  have hreplay := projects_applyIncrements hfor xs books
  obtain ⟨hkept, hend, -⟩ := hstep.takeRows h.heard h.numbers h.kept (.replay target)
  refine ⟨fun hlost => ?_, _, hreplay.book c hc, hend⟩
  rw [(hreplay.lost c hc).1 hlost] at hkept
  cases hkept

/--
However the stream of a book is cut in two: a snapshot of the book at the cut, and the rest of the
stream replayed after it, make of an idle book what the whole stream makes of the one that follows
it.
-/
theorem Streams.snapshot_replay {bs idle : Books} {target : Nat} {b : Book} {xs : List Located}
    (h : bs.Streams target b xs) (k : Nat) {cut joining : Book} {x : Located}
    (hcut : (applyIncrements .steady (xs.take k) bs).2.list[target]? = some cut)
    (hterms : idle.list.map Book.terms = bs.list.map Book.terms)
    (hjoining : idle.list[target]? = some joining) (hinactive : joining.isActive = false)
    (hx : idle.Shows target cut x) :
    ∃ whole books joined,
      (applyIncrements .steady xs bs).2.list[target]? = some whole ∧
      idle.applySnapshot x.message x.layout target = (.ok true, books) ∧
      target ∉ (applyIncrements (.replay target) (xs.drop k) books).1 ∧
      (applyIncrements (.replay target) (xs.drop k) books).2.list[target]? = some joined ∧
      joined.isActive = true ∧ joined.bids = whole.bids ∧ joined.asks = whole.asks ∧
      joined.rptSeq = whole.rptSeq := by
  have hmeant := bs.meant_take_drop target k xs
  have hawaits := h.awaits
  have hprices := h.byPrice
  have hwhole := (@projects_applyIncrements .steady target rfl xs bs).book b h.book
  rw [hmeant] at hawaits hprices hwhole
  rw [Book.takeRows_append] at hwhole
  -- up to the cut
  have hcutBook := (@projects_applyIncrements .steady target rfl (xs.take k) bs).book b h.book
  rw [hcut] at hcutBook
  obtain rfl := Option.some.inj hcutBook
  have htidy := (Book.tidy_of_empty h.isEmpty).takeRows
    (fun y hy => hprices y (List.mem_append_left _ hy)) .steady
  have hcutTerms := Book.terms_takeRows .steady
    (((xs.take k).flatMap Located.rows).filter (bs.isMeant target)) b
  have hrest := hawaits.append
  generalize (Book.takeRows .steady
    (((xs.take k).flatMap Located.rows).filter (bs.isMeant target)) b).2 = cut at *
  -- the snapshot
  obtain ⟨books, c, happly, hbooks, hc, hstep⟩ := applySnapshot_shown htidy hrest.isActive hx
    hjoining hinactive ((terms_of_getElem? hterms hjoining h.book).trans hcutTerms.symm)
  -- from the cut on
  rw [← isMeant_congr (hbooks.trans hterms) target] at hrest hwhole
  obtain ⟨hkept, joined, hjoined, hend⟩ := replay_of_inStep hrest hc hstep
  exact ⟨_, books, joined, hwhole, happly, hkept, hjoined, hend.isActive',
    (hend.alike.levels .bid).symm, (hend.alike.levels .ask).symm, hend.rptSeq⟩

/-- A message with the number of a book in front of its rows, and the book's id. -/
def bidsMessage (number : UInt64) (rows : List Row) : Located :=
  let field (name : String) (kind : Kind) : Field := .fresh { name, id := 0, kind } none
  { message := {
      id := 1
      name := "Bids"
      items := [
        .scalar ((field "RptSeq" .uint).put (.assigned (.uint number))),
        .scalar ((field "SecurityID" .uint).put (.assigned (.uint 5))),
        .group {
          head := field "MDEntries" .sequence
          length := (field "NoMDEntries" .uint).put (.assigned (.uint (.ofNat rows.length)))
          dictionary := []
          rows }] }
    layout := {
      templateId := 1, fixedType := none, messageType := none, seqNum := none, lastProcessed := none
      rptSeq := some 0, securityId := some 1, symbol := none, tradingSession := none
      entries := some 2
      row := {
        entryType := some 0, price := some 1, size := some 2, action := some 3, rptSeq := some 4
        securityId := some 5 } } }

def bidRow (action rptSeq : UInt64) (price size : Int64) : Row :=
  [.assigned (.bytes [48]), .assigned (.decimal ⟨price, 0⟩), .assigned (.int size),
    .assigned (.uint action), .assigned (.uint rptSeq), .assigned (.uint 5)]

def bidsBook : Book where
  symbol := "B"
  securityId := 5
  tick := ⟨1, 0⟩
  depth := 2

def bidsCut : Book :=
  { bidsBook with isActive := true, bids := [⟨101, 5⟩, ⟨100, 10⟩], rptSeq := 2 }

/-- Three bids, the last of which is too deep, and the deletion of the best. -/
def bidsStream : List Located :=
  [bidsMessage 0 [bidRow 0 1 100 10], bidsMessage 0 [bidRow 0 2 101 5],
    bidsMessage 0 [bidRow 0 3 99 7], bidsMessage 0 [bidRow 2 4 101 0]]

theorem streams_bids :
    Streams { list := [{ bidsBook with isActive := true }] } 0 { bidsBook with isActive := true }
      bidsStream where
  book := rfl
  isActive := rfl
  isEmpty := fun side => by cases side <;> rfl
  numbers := by decide +kernel
  byPrice := by decide +kernel
  kept := by decide +kernel

/-- A snapshot after two of the bids, the worse of them first. -/
theorem Streams.snapshot_replay_bids :
    ∃ whole books joined,
      (applyIncrements .steady bidsStream
        { list := [{ bidsBook with isActive := true }] }).2.list[0]? = some whole ∧
      ({ list := [bidsBook] } : Books).applySnapshot
          (bidsMessage 2 [bidRow 0 0 100 10, bidRow 0 0 101 5]).message (bidsMessage 0 []).layout 0 =
        (.ok true, books) ∧
      0 ∉ (applyIncrements (.replay 0) (bidsStream.drop 2) books).1 ∧
      (applyIncrements (.replay 0) (bidsStream.drop 2) books).2.list[0]? = some joined ∧
      joined.isActive = true ∧ joined.bids = whole.bids ∧ joined.asks = whole.asks ∧
      joined.rptSeq = whole.rptSeq := by
  have hcut : (applyIncrements .steady (bidsStream.take 2)
      { list := [{ bidsBook with isActive := true }] }).2.list[0]? = some bidsCut := by
    decide +kernel
  have hx : Shows { list := [bidsBook] } 0 bidsCut
      (bidsMessage 2 [bidRow 0 0 100 10, bidRow 0 0 101 5]) := by
    refine ⟨by decide +kernel, by decide +kernel, _, [(.bid, ⟨100, 10⟩), (.bid, ⟨101, 5⟩)], rfl, rfl,
      .cons ?_ (.cons ?_ .nil), fun side => by cases side <;> decide +kernel⟩
    · exact ⟨⟨.bid, .new, some ⟨100, 0⟩, 10, none⟩, _, by decide +kernel, rfl, rfl, rfl, rfl, rfl⟩
    · exact ⟨⟨.bid, .new, some ⟨101, 0⟩, 5, none⟩, _, by decide +kernel, rfl, rfl, rfl, rfl, rfl⟩
  exact streams_bids.snapshot_replay 2 hcut rfl rfl rfl hx

end Books

end MarketFeed
