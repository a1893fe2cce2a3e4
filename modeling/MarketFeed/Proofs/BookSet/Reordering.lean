import MarketFeed.Proofs.Book.Best
import MarketFeed.Proofs.Book.Refusal
import MarketFeed.Proofs.BookSet.Snapshot

/-!
# The rows of a snapshot in any order

A snapshot whose rows state their levels by price puts the best of them on each side, as many as the
book is deep: `Books.snapshot_reordered`. Where more are listed than the book keeps, levels come and
go while the rows are added; what is left in the end does not depend on the order.
-/

namespace MarketFeed

namespace Book

variable {b c : Book} {side : Side} {e : BookEntry}

/-- An entry of a price that is accepted has a price, which is one of the tick. -/
theorem ticks_of_accepts (h : b.Accepts e) (hside : e.kind.side? = some side)
    (haction : e.action = .new) (hlevel : e.level = none) :
    ∃ price ticks, e.price = some price ∧ b.priceInTicks price = .ok ticks := by
  unfold Accepts at h
  rw [apply_of_side hside] at h
  cases happly : b.applyTo side e with
  | error error =>
    rw [happly] at h
    cases h
  | ok b' =>
    unfold applyTo at happly
    rw [haction, hlevel] at happly
    cases hticks : b.entryTicks e with
    | error error => simp [hticks, bind, Except.bind] at happly
    | ok stated =>
      rw [hticks] at happly
      obtain ⟨ticks, rfl, -⟩ := entryLevel_bind_eq_ok (f := b.setLevel side) happly
      unfold entryTicks at hticks
      cases hprice : e.price with
      | none => simp [hprice] at hticks
      | some price =>
        rw [hprice] at hticks
        cases hinTicks : b.priceInTicks price with
        | error error => simp [hinTicks, Except.map] at hticks
        | ok _ => exact ⟨price, _, rfl, hinTicks⟩

end Book

/-! ## What rows list -/

namespace RowLayout

variable {l : RowLayout} {b c : Book} {row : Row} {x : Side × PriceLevel}

/-- The level that a row of a snapshot states, with its side. -/
def listing? (l : RowLayout) (b : Book) (row : Row) : Option (Side × PriceLevel) :=
  match l.bookEntry row true with
  | .error _ => none
  | .ok e =>
    match e.kind.side?, e.price.map b.priceInTicks with
    | some side, some (.ok price) => some (side, ⟨price, e.size⟩)
    | _, _ => none

theorem listing?_congr (h : b.terms = c.terms) (l : RowLayout) : l.listing? b = l.listing? c := by
  have hticks : b.priceInTicks = c.priceInTicks := by
    funext price
    simp only [Book.priceInTicks, Book.tick_of_terms h]
  unfold listing?
  rw [hticks]

theorem lists_of_listing? (hlevel : l.levelOf row = .ok none) (h : l.listing? b row = some x) :
    l.Lists b row x := by
  unfold listing? at h
  cases hentry : l.bookEntry row true with
  | error e => simp [hentry] at h
  | ok e =>
    simp only [hentry] at h
    split at h
    · next side price hside hprice =>
      obtain ⟨decimal, hdecimal, hticks⟩ := Option.map_eq_some_iff.1 hprice
      obtain rfl := Option.some.inj h
      exact ⟨e, decimal, hentry, hside, level_bookEntry hlevel hentry, hdecimal, hticks, rfl⟩
    · cases h

/-- The levels that the rows of a snapshot list, each with its side. -/
def listed (l : RowLayout) (b : Book) (rows : List Row) : List (Side × PriceLevel) :=
  rows.filterMap (l.listing? b)

/-- The rows state levels by price, no price of a side twice, and none says that the book is empty. -/
structure ByPrice (l : RowLayout) (b : Book) (rows : List Row) : Prop where
  byPrice : ∀ row ∈ rows, l.levelOf row = .ok none
  unmarked : ∀ row ∈ rows, ∀ e, l.bookEntry row true = .ok e → e.kind ≠ .emptyBook
  distinct : ∀ side, ((onSide side (l.listed b rows)).map PriceLevel.price).Nodup

end RowLayout

theorem onSide_cons_self (side : Side) (level : PriceLevel) (listed : List (Side × PriceLevel)) :
    onSide side ((side, level) :: listed) = level :: onSide side listed := by
  simp [onSide]

theorem onSide_cons_of_ne {side other : Side} (h : other ≠ side) (level : PriceLevel)
    (listed : List (Side × PriceLevel)) :
    onSide other ((side, level) :: listed) = onSide other listed := by
  simp [onSide, Ne.symm h]

theorem onSide_perm {listed listed' : List (Side × PriceLevel)} (h : listed.Perm listed')
    (side : Side) : (onSide side listed).Perm (onSide side listed') :=
  (h.filter _).map _

theorem RowLayout.listed_perm {rows rows' : List Row} (h : rows'.Perm rows) (l : RowLayout)
    (b : Book) : (l.listed b rows').Perm (l.listed b rows) :=
  h.filterMap _

theorem RowLayout.ByPrice.perm {l : RowLayout} {b : Book} {rows rows' : List Row}
    (h : l.ByPrice b rows) (hperm : rows'.Perm rows) : l.ByPrice b rows' where
  byPrice row hrow := h.byPrice row (hperm.mem_iff.1 hrow)
  unmarked row hrow := h.unmarked row (hperm.mem_iff.1 hrow)
  distinct side :=
    ((onSide_perm (listed_perm hperm l b) side).map PriceLevel.price).nodup_iff.2 (h.distinct side)

namespace Books

variable {l : RowLayout} {rows : List Row} {b c c' : Book}

/-- Rows that a book takes list a level each. -/
theorem listing?_of_addRows (h : addRows l rows c = .ok c')
    (hbyPrice : ∀ row ∈ rows, l.levelOf row = .ok none)
    (hunmarked : ∀ row ∈ rows, ∀ e, l.bookEntry row true = .ok e → e.kind ≠ .emptyBook) :
    ∀ row ∈ rows, (l.listing? c row).isSome = true := by
  induction rows generalizing c with
  | nil => simp
  | cons row rows ih =>
    rw [List.forall_mem_cons] at hbyPrice hunmarked ⊢
    obtain ⟨e, d, hentry, happly, hlast⟩ := addRows_cons_eq_ok h
    obtain ⟨side, hside⟩ : ∃ side, e.kind.side? = some side := by
      have hkind := hunmarked.1 e hentry
      cases hkind' : e.kind with
      | bid => exact ⟨.bid, rfl⟩
      | offer => exact ⟨.ask, rfl⟩
      | emptyBook => exact absurd hkind' hkind
    obtain ⟨price, ticks, hprice, hticks⟩ :=
      Book.ticks_of_accepts (congrArg Prod.fst happly) hside (RowLayout.action_bookEntry hentry)
        (RowLayout.level_bookEntry hbyPrice.1 hentry)
    have hkeeps := c.keeps_apply e
    have hmark := c.isEmpty_apply e
    rw [happly] at hkeeps hmark
    refine ⟨?_, ?_⟩
    · simp [RowLayout.listing?, hentry, hside, hprice, hticks]
    · rw [decide_eq_false (hunmarked.1 e hentry)] at hmark
      rcases hlast with ⟨hempty, -⟩ | ⟨-, hrows⟩
      · cases hmark.symm.trans hempty
      · rw [RowLayout.listing?_congr hkeeps.terms.symm]
        exact ih hrows hbyPrice.2 hunmarked.2

/-- The levels that are set on the sides, and those that rows list. -/
def withListed (set : Side → List PriceLevel) (listed : List (Side × PriceLevel)) (side : Side) :
    List PriceLevel :=
  set side ++ onSide side listed

theorem withListed_cons (set : Side → List PriceLevel) (side : Side) (level : PriceLevel)
    (listed : List (Side × PriceLevel)) :
    withListed set ((side, level) :: listed) =
      withListed (Function.update set side (set side ++ [level])) listed := by
  funext other
  unfold withListed
  by_cases hother : other = side
  · subst hother
    rw [onSide_cons_self, Function.update_self, List.append_assoc, List.singleton_append]
  · rw [onSide_cons_of_ne hother, Function.update_of_ne hother]

/-- Added to the best of the levels that are set, rows leave the best of all of them. -/
theorem addRows_withBest {set : Side → List PriceLevel} (hempty : b.isEmpty = false)
    (hbyPrice : ∀ row ∈ rows, l.levelOf row = .ok none)
    (hlisting : ∀ row ∈ rows, (l.listing? b row).isSome = true)
    (hdistinct : ∀ side,
      ((withListed set (l.listed b rows) side).map PriceLevel.price).Nodup) :
    addRows l rows (b.withBest set) = .ok (b.withBest (withListed set (l.listed b rows))) := by
  induction rows generalizing set with
  | nil =>
    have hset : withListed set (l.listed b []) = set := by
      funext side
      exact List.append_nil (set side)
    rw [hset]
    rfl
  | cons row rows ih =>
    rw [List.forall_mem_cons] at hbyPrice hlisting
    obtain ⟨⟨side, level⟩, hrow⟩ := Option.isSome_iff_exists.1 hlisting.1
    obtain ⟨e, price, hentry, hside, hlevel, hprice, hticks, hsize⟩ :=
      RowLayout.lists_of_listing? hbyPrice.1 hrow
    have hlisted : l.listed b (row :: rows) = (side, level) :: l.listed b rows :=
      List.filterMap_cons_some hrow
    rw [hlisted, withListed_cons] at hdistinct ⊢
    have hset : (b.withBest set).setLevel side level =
        .ok (b.withBest (Function.update set side (set side ++ [level]))) := by
      refine Book.setLevel_withBest ?_
      have hown := hdistinct side
      rw [withListed, Function.update_self, List.map_append] at hown
      exact (List.nodup_append.1 hown).1
    have hself : ({ b.withBest set with isEmpty := false } : Book) = b.withBest set := by
      rw [← hempty]
      rfl
    have happly := Book.apply_stated (b := b.withBest set) hside
      (RowLayout.action_bookEntry hentry) hlevel hprice hticks hsize
    rw [hself, hset] at happly
    rw [addRows_cons hentry happly hempty]
    exact ih hbyPrice.2 hlisting.2 hdistinct

/-- Added to a book that has been cleared, rows leave the best of the levels that they list. -/
theorem addRows_cleared (hprices : l.ByPrice b rows)
    (hlisting : ∀ row ∈ rows, (l.listing? b row).isSome = true) (rptSeq : UInt64) :
    addRows l rows { b.clear with rptSeq } =
      .ok (({ b.clear with rptSeq } : Book).withBest fun side => onSide side (l.listed b rows)) := by
  have hlist : l.listing? ({ b.clear with rptSeq } : Book) = l.listing? b :=
    RowLayout.listing?_congr rfl l
  have hlisted : l.listed ({ b.clear with rptSeq } : Book) rows = l.listed b rows := by
    rw [RowLayout.listed, hlist]
    rfl
  have hstart : ({ b.clear with rptSeq } : Book).withBest (fun _ => []) =
      { b.clear with rptSeq } := by
    simp [Book.withBest, Side.bestFirst, Book.clear]
  have hadd := @addRows_withBest l rows { b.clear with rptSeq } (fun _ => []) rfl
    hprices.byPrice (by rwa [hlist]) (by rw [hlisted]; exact hprices.distinct)
  rwa [hstart, hlisted] at hadd

end Books

/-! ## Messages with other rows -/

/-- The item with these rows, if it is a group. -/
def Item.withRows (rows : List Row) : Item → Item
  | scalar f => scalar f
  | group g => group { g with rows }

namespace MessageLayout

variable {l : MessageLayout} {m : Message} {g : Group}

/-- The message with these rows for its entries. -/
def withRows (l : MessageLayout) (m : Message) (rows : List Row) : Message :=
  match l.entries with
  | none => m
  | some i => { m with items := m.items.modify i (Item.withRows rows) }

/-- What stands in front of the rows is the same. -/
theorem entryAt_withRows (l : MessageLayout) (m : Message) (rows : List Row)
    (position : Option Nat) : entryAt (l.withRows m rows) position = entryAt m position := by
  unfold entryAt withRows
  cases l.entries with
  | none => rfl
  | some i =>
    cases position with
    | none => rfl
    | some j =>
      simp only [Option.bind_some, List.getElem?_modify]
      cases m.items[j]? with
      | none => rfl
      | some item =>
        by_cases hij : i = j
        · cases item <;> simp [hij, Item.withRows, Item.head]
        · simp [hij]

theorem entriesOf_withRows (h : l.entriesOf m = some g) (rows : List Row) :
    l.entriesOf (l.withRows m rows) = some { g with rows } := by
  obtain ⟨hgroup, hassigned⟩ := Option.filter_eq_some_iff.1 h
  unfold entriesOf withRows
  cases hentries : l.entries with
  | none => simp [hentries] at hgroup
  | some i =>
    simp only [hentries, Option.bind_some] at hgroup
    cases hitem : m.items[i]? with
    | none => simp [hitem] at hgroup
    | some item =>
      cases item with
      | scalar f => simp [hitem, Item.group?] at hgroup
      | group g' =>
        obtain rfl : g' = g := by simpa [hitem, Item.group?] using hgroup
        simp [hitem, Item.withRows, Item.group?, Option.filter, hassigned]

/-- The trading session that a snapshot is taken to be of. -/
def sessionOf (l : MessageLayout) (m : Message) : Option (List UInt8) :=
  ((l.entriesOf m).bind fun g => g.rows.head?.bind l.row.tradingSessionOf) <|> l.tradingSessionOf m

end MessageLayout

namespace Books

variable {bs : Books} {target : Nat} {b : Book} {m : Message} {l : MessageLayout} {g : Group}

theorem acceptsSnapshot_eq (h : l.entriesOf m = some g) (b : Book) :
    acceptsSnapshot b m l g = (l.sessionOf m).all b.acceptsSession := by
  unfold acceptsSnapshot MessageLayout.sessionOf
  rw [h]
  rfl

/-- With other rows it is a snapshot for the same book, if it is of the same session. -/
theorem Offers.withRows {rptSeq : UInt64} (h : bs.Offers m l target b g rptSeq) {rows : List Row}
    (hsession : l.sessionOf (l.withRows m rows) = l.sessionOf m) :
    bs.Offers (l.withRows m rows) l target b { g with rows } rptSeq where
  named := by
    simpa only [MessageLayout.securityIdOf, MessageLayout.symbolOf,
      MessageLayout.entryAt_withRows] using h.named
  book := h.book
  isIdle := h.isIdle
  entries := MessageLayout.entriesOf_withRows h.entries rows
  accepted := by
    rw [acceptsSnapshot_eq (MessageLayout.entriesOf_withRows h.entries rows), hsession,
      ← acceptsSnapshot_eq h.entries]
    exact h.accepted
  number := by
    simpa only [MessageLayout.rptSeqOf, MessageLayout.entryAt_withRows] using h.number

/-- A snapshot that is taken is one for the book, and its rows can be added. -/
theorem offers_of_taken (h : (bs.applySnapshot m l target).1 = .ok true) :
    ∃ b g rptSeq c, bs.Offers m l target b g rptSeq ∧
      addRows l.row g.rows { b.clear with rptSeq } = .ok c := by
  have happlies := bs.applies_snapshot m l target
  generalize bs.applySnapshot m l target = result at happlies h
  cases happlies with
  | passes hnot => exact absurd h hnot
  | empties _ _ => cases h
  | fills offered rows => exact ⟨_, _, _, _, offered, rows⟩

/--
A snapshot that states levels by price and is taken puts the best of them on each side, as many as
the book is deep; in any other order of its rows, in which it is of the same session, it is taken
just as well and does the same.
-/
theorem snapshot_reordered (hb : bs.list[target]? = some b) (hentries : l.entriesOf m = some g)
    (htaken : (bs.applySnapshot m l target).1 = .ok true) (hprices : l.row.ByPrice b g.rows)
    {rows : List Row} (hperm : rows.Perm g.rows)
    (hsession : l.sessionOf (l.withRows m rows) = l.sessionOf m) :
    bs.applySnapshot (l.withRows m rows) l target = bs.applySnapshot m l target ∧
      ∃ c, (bs.applySnapshot m l target).2.list[target]? = some c ∧ ∀ side, c.levels side =
        (side.bestFirst (onSide side (l.row.listed b g.rows))).take b.depth := by
  obtain ⟨b', g', rptSeq, c, hoffers, hrows⟩ := offers_of_taken htaken
  obtain rfl := Option.some.inj (hb.symm.trans hoffers.book)
  obtain rfl := Option.some.inj (hentries.symm.trans hoffers.entries)
  have hlisting : ∀ row ∈ g.rows, (l.row.listing? b row).isSome = true := by
    have hall := listing?_of_addRows hrows hprices.byPrice hprices.unmarked
    rwa [RowLayout.listing?_congr (b := { b.clear with rptSeq }) (c := b) rfl] at hall
  have hbest := addRows_cleared hprices hlisting rptSeq
  have hbest' := addRows_cleared (hprices.perm hperm)
    (fun row hrow => hlisting row (hperm.mem_iff.1 hrow)) rptSeq
  rw [Book.withBest_congr (fun side => onSide_perm (RowLayout.listed_perm hperm l.row b) side)
    (hprices.perm hperm).distinct] at hbest'
  rw [(hoffers.withRows hsession).applySnapshot, hoffers.applySnapshot, hbest, hbest']
  refine ⟨rfl, ?_⟩
  exact ⟨_, (getElem?_put hb _ target).trans (if_pos rfl), fun side => by cases side <;> rfl⟩

/-- Three bids for a book of two: the worst of them is dropped on the way, or has no place at all. -/
theorem snapshot_reordered_bids :
    let x := bidsMessage 2 [bidRow 0 0 100 10, bidRow 0 0 99 7, bidRow 0 0 101 5]
    let rows := [bidRow 0 0 101 5, bidRow 0 0 100 10, bidRow 0 0 99 7]
    let bs : Books := { list := [bidsBook] }
    bs.applySnapshot (x.layout.withRows x.message rows) x.layout 0 =
        bs.applySnapshot x.message x.layout 0 ∧
      ∃ c, (bs.applySnapshot x.message x.layout 0).2.list[0]? = some c ∧
        c.bids = [⟨101, 5⟩, ⟨100, 10⟩] := by
  intro x rows bs
  have hprices : x.layout.row.ByPrice bidsBook
      [bidRow 0 0 100 10, bidRow 0 0 99 7, bidRow 0 0 101 5] := by
    refine ⟨by decide +kernel, ?_, fun side => by cases side <;> decide +kernel⟩
    have hbids : ∀ row ∈ [bidRow 0 0 100 10, bidRow 0 0 99 7, bidRow 0 0 101 5],
        (x.layout.row.bookEntry row true).toOption.map BookEntry.kind = some .bid := by
      decide +kernel
    intro row hrow e he hkind
    have hbid := hbids row hrow
    rw [he, Except.toOption, Option.map_some, hkind] at hbid
    cases hbid
  have hb : bs.list[0]? = some bidsBook := rfl
  have hperm : rows.Perm [bidRow 0 0 100 10, bidRow 0 0 99 7, bidRow 0 0 101 5] := by
    decide +kernel
  have htaken : (bs.applySnapshot x.message x.layout 0).1 = .ok true := by decide +kernel
  obtain ⟨hsame, c, hc, hlevels⟩ := snapshot_reordered hb rfl htaken hprices hperm
    (by decide +kernel)
  have hordered : Side.bid.Ordered [⟨101, 5⟩, ⟨100, 10⟩, ⟨99, 7⟩] := by
    unfold Side.Ordered
    decide
  refine ⟨hsame, c, hc, (hlevels .bid).trans ?_⟩
  rw [← hordered.eq_bestFirst (by decide +kernel)]
  rfl

end Books

end MarketFeed
