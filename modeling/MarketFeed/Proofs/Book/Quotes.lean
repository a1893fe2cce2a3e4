import MarketFeed.Proofs.Book.Heads
import Mathlib.Data.List.Nodup

/-!
# Sides as ordered maps

As long as its levels are addressed by their prices, a side of a book is an ordered map from prices
to sizes that is cut off at the depth of the book: `quotes_of_priceCalls`. What the binary search
does on sorted levels is told by which levels there are in the end, since levels in order are told
by their members.
-/

namespace MarketFeed

namespace Side

/-- The order of the prices of a side: bids fall, asks rise. -/
def order : Side → Int64 → Int64 → Ordering
  | bid, a, b => compare b a
  | ask, a, b => compare a b

instance (side : Side) : Std.TransCmp side.order :=
  match side with
  | bid => inferInstanceAs (Std.TransCmp fun a b : Int64 => compare b a)
  | ask => inferInstanceAs (Std.TransCmp fun a b : Int64 => compare a b)

instance (side : Side) : Std.LawfulEqCmp side.order :=
  match side with
  | bid => inferInstanceAs (Std.LawfulEqCmp fun a b : Int64 => compare b a)
  | ask => inferInstanceAs (Std.LawfulEqCmp fun a b : Int64 => compare a b)

theorem order_eq_lt_iff {side : Side} {a b : Int64} :
    side.order a b = .lt ↔ side.isBetter a b = true := by
  cases side <;> simp [order, isBetter, Std.compare_eq_lt]

/-- The sizes at the prices of a side, the best price first. -/
abbrev Quotes (side : Side) := Std.ExtTreeMap Int64 Int64 side.order

namespace Quotes

variable {side : Side}

/-- The quotes as levels, the best first. -/
def levels (q : side.Quotes) : List PriceLevel := q.toList.map fun (price, size) => ⟨price, size⟩

/-- The best `n` quotes. -/
def best (q : side.Quotes) (n : Nat) : side.Quotes := .ofList (q.toList.take n) side.order

/-- Sets the size at a price, and keeps the best `depth` quotes. -/
def set (q : side.Quotes) (depth : Nat) (level : PriceLevel) : side.Quotes :=
  best (q.insert level.price level.size) depth

theorem mem_levels {q : side.Quotes} {level : PriceLevel} :
    level ∈ q.levels ↔ q[level.price]? = some level.size := by
  rw [← Std.ExtTreeMap.mem_toList_iff_getElem?_eq_some, levels, List.mem_map]
  constructor
  · rintro ⟨⟨price, size⟩, hmem, rfl⟩
    exact hmem
  · exact fun hmem => ⟨_, hmem, rfl⟩

theorem ordered_levels (q : side.Quotes) : side.Ordered q.levels :=
  List.pairwise_map.2 (Std.ExtTreeMap.ordered_keys_toList.imp fun h => order_eq_lt_iff.1 h)

end Quotes

section

variable {side : Side} {levels : List PriceLevel}

/-- Levels in order with the same members as the quotes are the quotes. -/
theorem Ordered.eq_levels (h : side.Ordered levels) {q : side.Quotes}
    (hmem : ∀ level, level ∈ levels ↔ q[level.price]? = some level.size) : levels = q.levels := by
  refine h.eq_of_perm q.ordered_levels ((List.perm_ext_iff_of_nodup ?_ ?_).2 fun level => ?_)
  · exact List.Nodup.of_map _ h.nodup
  · exact List.Nodup.of_map _ q.ordered_levels.nodup
  · rw [hmem, Quotes.mem_levels]

end

namespace Quotes

variable {side : Side}

theorem levels_best (q : side.Quotes) (n : Nat) : (q.best n).levels = q.levels.take n := by
  have hordered : side.Ordered (q.levels.take n) :=
    q.ordered_levels.sublist (List.take_sublist n _)
  have hdistinct : (q.toList.take n).Pairwise fun a b => ¬ side.order a.1 b.1 = .eq := by
    refine (Std.ExtTreeMap.ordered_keys_toList.sublist (List.take_sublist n _)).imp fun h heq => ?_
    rw [h] at heq
    cases heq
  refine (hordered.eq_levels fun level => ?_).symm
  have htake : level ∈ q.levels.take n ↔ (level.price, level.size) ∈ q.toList.take n := by
    rw [levels, ← List.map_take, List.mem_map]
    constructor
    · rintro ⟨⟨price, size⟩, hmem, rfl⟩
      exact hmem
    · exact fun hmem => ⟨_, hmem, rfl⟩
  rw [htake, best]
  constructor
  · exact Std.ExtTreeMap.getElem?_ofList_of_mem Std.ReflCmp.compare_self hdistinct
  · intro hget
    -- Some size is listed at the price, or there would be none; and no price is listed twice.
    cases hlisted : ((q.toList.take n).map Prod.fst).contains level.price with
    | false =>
      rw [Std.ExtTreeMap.getElem?_ofList_of_contains_eq_false hlisted] at hget
      cases hget
    | true =>
      obtain ⟨⟨price, size⟩, hmem, rfl⟩ := List.mem_map.1 (List.contains_iff_mem.1 hlisted)
      rw [Std.ExtTreeMap.getElem?_ofList_of_mem Std.ReflCmp.compare_self hdistinct hmem] at hget
      rwa [← Option.some.inj hget]

theorem levels_set (q : side.Quotes) (depth : Nat) (level : PriceLevel) :
    (q.set depth level).levels = (levels (q.insert level.price level.size)).take depth :=
  levels_best _ depth

theorem mem_levels_insert {q : side.Quotes} {level other : PriceLevel} :
    other ∈ levels (q.insert level.price level.size) ↔
      other = level ∨ other.price ≠ level.price ∧ other ∈ q.levels := by
  obtain ⟨price, size⟩ := level
  obtain ⟨price', size'⟩ := other
  simp only [mem_levels, Std.ExtTreeMap.getElem?_insert, Std.LawfulEqCmp.compare_eq_iff_eq]
  by_cases hprice : price = price'
  · simp [hprice, eq_comm]
  · simp [hprice, Ne.symm hprice]

theorem mem_levels_erase {q : side.Quotes} {price : Int64} {other : PriceLevel} :
    other ∈ levels (q.erase price) ↔ other.price ≠ price ∧ other ∈ q.levels := by
  simp only [mem_levels, Std.ExtTreeMap.getElem?_erase, Std.LawfulEqCmp.compare_eq_iff_eq]
  by_cases hprice : price = other.price
  · simp [hprice]
  · simp [hprice, Ne.symm hprice]

theorem length_levels_erase_le (q : side.Quotes) (price : Int64) :
    (levels (q.erase price)).length ≤ q.levels.length := by
  simp only [levels, List.length_map, Std.ExtTreeMap.length_toList]
  exact Std.ExtTreeMap.size_erase_le

theorem levels_empty : levels (∅ : side.Quotes) = [] :=
  List.eq_nil_iff_forall_not_mem.2 fun level hmem => by simp [mem_levels] at hmem

end Quotes

/-! ## Edits as edits of the map -/

section

variable {side : Side} {levels : List PriceLevel} {price : Int64} {i : Nat}

/-- Another size at the place of a price is another size at that price. -/
theorem Ordered.levels_insert_of_found {q : side.Quotes} (h : side.Ordered levels)
    (hq : levels = q.levels) {level : PriceLevel}
    (hfound : side.Locates levels level.price (.found i)) :
    levels.modify i (fun l => { l with size := level.size }) =
      Quotes.levels (q.insert level.price level.size) := by
  obtain ⟨hi, hprice⟩ := hfound
  refine (h.resize i level.size).eq_levels fun other => ?_
  rw [← Quotes.mem_levels, Quotes.mem_levels_insert, ← hq, List.mem_iff_getElem]
  simp only [List.length_modify, List.getElem_modify]
  constructor
  · rintro ⟨j, hj, rfl⟩
    by_cases hij : i = j
    · subst hij
      rw [if_pos rfl, hprice]
      exact .inl rfl
    · rw [if_neg hij]
      exact .inr
        ⟨fun heq => hij (h.index_unique hi hj (hprice.trans heq.symm)), List.getElem_mem hj⟩
  · rintro (rfl | ⟨hne, hmem⟩)
    · exact ⟨i, hi, by rw [if_pos rfl, hprice]⟩
    · obtain ⟨j, hj, rfl⟩ := List.getElem_of_mem hmem
      refine ⟨j, hj, if_neg fun hij => hne ?_⟩
      subst hij
      exact hprice

theorem Ordered.ne_of_missing (hmissing : side.Locates levels price (.missing i))
    {level : PriceLevel} (hmem : level ∈ levels) : level.price ≠ price := by
  obtain ⟨j, hj, rfl⟩ := List.getElem_of_mem hmem
  exact fun heq => hmissing.ne_missing hj heq

/-- A level at the place of a price that is missing is a new size at that price. -/
theorem Ordered.levels_insert_of_missing {q : side.Quotes} (h : side.Ordered levels)
    (hq : levels = q.levels) {level : PriceLevel}
    (hmissing : side.Locates levels level.price (.missing i)) :
    levels.insertIdx i level = Quotes.levels (q.insert level.price level.size) := by
  refine (h.insert hmissing).eq_levels fun other => ?_
  rw [← Quotes.mem_levels, Quotes.mem_levels_insert, ← hq, List.mem_insertIdx hmissing.1]
  refine or_congr_right ⟨fun hmem => ⟨Ordered.ne_of_missing hmissing hmem, hmem⟩, And.right⟩

theorem Ordered.levels_erase_of_found {q : side.Quotes} (h : side.Ordered levels)
    (hq : levels = q.levels) (hfound : side.Locates levels price (.found i)) :
    levels.eraseIdx i = Quotes.levels (q.erase price) := by
  obtain ⟨hi, hprice⟩ := hfound
  have hordered : side.Ordered (levels.eraseIdx i) := h.sublist (List.eraseIdx_sublist _ _)
  refine hordered.eq_levels fun other => ?_
  rw [← Quotes.mem_levels, Quotes.mem_levels_erase, ← hq, List.mem_eraseIdx_iff_getElem]
  constructor
  · rintro ⟨j, hj, hne, rfl⟩
    exact ⟨fun heq => hne (h.index_unique hj hi (heq.trans hprice.symm)), List.getElem_mem hj⟩
  · rintro ⟨hne, hmem⟩
    obtain ⟨j, hj, rfl⟩ := List.getElem_of_mem hmem
    exact ⟨j, hj, fun hij => hne (by subst hij; exact hprice), rfl⟩

theorem Ordered.levels_erase_of_missing {q : side.Quotes} (h : side.Ordered levels)
    (hq : levels = q.levels) (hmissing : side.Locates levels price (.missing i)) :
    levels = Quotes.levels (q.erase price) := by
  refine h.eq_levels fun other => ?_
  rw [← Quotes.mem_levels, Quotes.mem_levels_erase, ← hq]
  exact ⟨fun hmem => ⟨Ordered.ne_of_missing hmissing hmem, hmem⟩, And.right⟩

/-- Where a price is missing, just the better levels are in front of it. -/
theorem Locates.countP_better (hmissing : side.Locates levels price (.missing i)) :
    levels.countP (fun level => side.isBetter level.price price) = i := by
  obtain ⟨hi, hfront, hbehind⟩ := hmissing
  rw [← List.take_append_drop i levels, List.countP_append, List.countP_eq_length.2 hfront,
    List.countP_eq_zero.2, List.length_take, Nat.min_eq_left hi, Nat.add_zero]
  intro level hlevel hbetter
  have hself := isBetter_trans hbetter (hbehind level hlevel)
  rw [isBetter_irrefl] at hself
  cases hself

end

end Side

namespace Book

variable {b : Book} {side : Side}

theorem Tidy.setLevel_eq (h : b.Tidy) {q : side.Quotes} (hq : b.levels side = q.levels)
    (level : PriceLevel) :
    b.setLevel side level = .ok (b.withLevels side (q.set b.depth level).levels) := by
  have hordered := h.ordered side
  have hbounded := h.bounded side
  have hlocates := h.locates side level.price
  unfold Book.setLevel
  rw [Side.Quotes.levels_set]
  cases hlocate : side.locate (b.levels side) level.price with
  | found i =>
    rw [hlocate] at hlocates
    rw [← hordered.levels_insert_of_found hq hlocates, List.take_of_length_le (by simpa)]
    rfl
  | missing i =>
    rw [hlocate] at hlocates
    have hi := hlocates.1
    rw [← hordered.levels_insert_of_missing hq hlocates]
    simp only [newLevel]
    by_cases hpast : b.depth ≤ i
    · -- All levels are better, and there are as many of them as the book keeps.
      have hkept : ((b.levels side).insertIdx i level).take b.depth = b.levels side := by
        rw [Side.insertIdx_eq hi, List.take_append_of_le_length (by simp; omega),
          List.take_take, Nat.min_eq_left hpast, List.take_of_length_le hbounded]
      rw [if_pos hpast, hkept, withLevels_self]
    · rw [if_neg hpast, if_neg (by omega)]

/-- A deletion takes the price out of the map, or fails and leaves the map as it is. -/
theorem Tidy.deletePrice_eq (h : b.Tidy) {q : side.Quotes} (hq : b.levels side = q.levels)
    (price : Int64) :
    b.deletePrice side price =
        (if price ∉ (b.levels side).map PriceLevel.price ∧
            (b.levels side).countP (fun level => side.isBetter level.price price) < b.depth then
          .error (.priceNotFound side price)
        else .ok (b.withLevels side (Side.Quotes.levels (q.erase price)))) ∧
      (price ∉ (b.levels side).map PriceLevel.price →
        b.levels side = Side.Quotes.levels (q.erase price)) := by
  have hordered := h.ordered side
  have hlocates := h.locates side price
  unfold Book.deletePrice
  cases hlocate : side.locate (b.levels side) price with
  | found i =>
    rw [hlocate] at hlocates
    have hheld : price ∈ (b.levels side).map PriceLevel.price := by
      obtain ⟨hi, rfl⟩ := hlocates
      exact List.mem_map_of_mem (List.getElem_mem hi)
    rw [← hordered.levels_erase_of_found hq hlocates, if_neg fun hfails => hfails.1 hheld]
    exact ⟨rfl, fun hnot => absurd hheld hnot⟩
  | missing i =>
    rw [hlocate] at hlocates
    have hnot : price ∉ (b.levels side).map PriceLevel.price := fun hheld => by
      obtain ⟨level, hmem, rfl⟩ := List.mem_map.1 hheld
      exact Side.Ordered.ne_of_missing hlocates hmem rfl
    have hsame := hordered.levels_erase_of_missing hq hlocates
    refine ⟨?_, fun _ => hsame⟩
    rw [hlocates.countP_better, ← hsame, withLevels_self]
    by_cases hpast : b.depth ≤ i
    · rw [if_neg fun hfails => Nat.not_lt_of_le hpast hfails.2]
      exact if_pos hpast
    · rw [if_pos ⟨hnot, Nat.lt_of_not_le hpast⟩]
      exact if_neg hpast

/-! ## Runs -/

/-- A call that is about a price, or about all of them. -/
inductive PriceCall where
  | set (side : Side) (level : PriceLevel)
  | delete (side : Side) (price : Int64)
  | clear

/-- The book after a call, which leaves it as it is if it fails. -/
def PriceCall.run (b : Book) : PriceCall → Book
  | set side level => (b.setLevel side level).toOption.getD b
  | delete side price => (b.deletePrice side price).toOption.getD b
  | clear => b.clear

/-- What a call does to the maps of both sides. -/
def PriceCall.quote (depth : Nat) (q : (side : Side) → side.Quotes) :
    PriceCall → (side : Side) → side.Quotes
  | set side level => Function.update q side ((q side).set depth level)
  | delete side price => Function.update q side ((q side).erase price)
  | clear => fun _ => ∅

/-- A tidy book of this depth whose sides are these maps. -/
structure Quoted (depth : Nat) (q : (side : Side) → side.Quotes) (b : Book) : Prop where
  tidy : b.Tidy
  depth : b.depth = depth
  levels : ∀ side, b.levels side = (q side).levels

theorem quoted_create (symbol : String) (securityId : UInt64) (tick : Decimal)
    (session : Option String) {depth : Nat} (hpos : 1 ≤ depth) (hmax : depth ≤ maxDepth) :
    Quoted depth (fun _ => ∅) (create symbol securityId tick depth session) := by
  have hnil (side : Side) : (create symbol securityId tick depth session).levels side = [] := by
    cases side <;> rfl
  refine ⟨tidy_of_empty hnil, ?_, fun side => (hnil side).trans Side.Quotes.levels_empty.symm⟩
  simp only [create]
  omega

theorem Quoted.withLevels {depth : Nat} {q : (side : Side) → side.Quotes} (h : Quoted depth q b)
    {q' : side.Quotes} (hbounded : q'.levels.length ≤ b.depth) :
    Quoted depth (Function.update q side q') (b.withLevels side q'.levels) := by
  refine ⟨h.tidy.withLevels q'.ordered_levels hbounded, ?_, fun other => ?_⟩
  · rw [depth_withLevels, h.depth]
  · by_cases hother : other = side
    · subst hother
      rw [levels_withLevels, Function.update_self]
    · rw [levels_withLevels_of_ne b hother, Function.update_of_ne hother, h.levels]

/-- A call does to the levels what it does to the maps. -/
theorem Quoted.run {depth : Nat} {q : (side : Side) → side.Quotes} (h : Quoted depth q b)
    (c : PriceCall) : Quoted depth (c.quote depth q) (c.run b) := by
  cases c with
  | set side level =>
    simp only [PriceCall.run, PriceCall.quote, h.tidy.setLevel_eq (h.levels side), h.depth]
    refine h.withLevels ?_
    rw [Side.Quotes.levels_set, List.length_take, h.depth]
    exact Nat.min_le_left _ _
  | delete side price =>
    obtain ⟨hdelete, hsame⟩ := h.tidy.deletePrice_eq (h.levels side) price
    have hbounded := Nat.le_trans ((q side).length_levels_erase_le price)
      (h.levels side ▸ h.tidy.bounded side)
    have herased := h.withLevels hbounded
    simp only [PriceCall.run, PriceCall.quote, hdelete]
    split
    · next hfails => rwa [← hsame hfails.1, withLevels_self] at herased
    · exact herased
  | clear =>
    have hnil (side : Side) : b.clear.levels side = [] := by cases side <;> rfl
    exact ⟨tidy_of_empty hnil, h.depth,
      fun side => (hnil side).trans Side.Quotes.levels_empty.symm⟩

theorem quoted_foldl {depth : Nat} {q : (side : Side) → side.Quotes} (h : Quoted depth q b)
    (calls : List PriceCall) :
    Quoted depth (calls.foldl (PriceCall.quote depth) q) (calls.foldl PriceCall.run b) := by
  induction calls generalizing b q with
  | nil => exact h
  | cons c calls ih => exact ih (h.run c)

/--
Whatever prices are set and deleted on a new book, and wherever it is cleared: either side is in
order, has no price twice, is no deeper than the book, and shows the best of what an ordered map
holds. Setting a price never fails. Deleting one fails just if the price is not there and fewer
levels than the book keeps are better. The other side stays as it is.
-/
theorem quotes_of_priceCalls (symbol : String) (securityId : UInt64) (tick : Decimal)
    (session : Option String) {depth : Nat} (hpos : 1 ≤ depth) (hmax : depth ≤ maxDepth)
    (calls : List PriceCall) :
    let b := calls.foldl PriceCall.run (create symbol securityId tick depth session)
    let q := calls.foldl (PriceCall.quote depth) fun _ => ∅
    (∀ side, side.Ordered (b.levels side) ∧ ((b.levels side).map PriceLevel.price).Nodup ∧
      (b.levels side).length ≤ depth ∧ b.levels side = (q side).levels) ∧
    (∀ side level, ∃ b', b.setLevel side level = .ok b' ∧
      ∀ other, other ≠ side → b'.levels other = b.levels other) ∧
    ∀ side price,
      ((∃ e, b.deletePrice side price = .error e) ↔
        price ∉ (b.levels side).map PriceLevel.price ∧
          (b.levels side).countP (fun level => side.isBetter level.price price) < depth) ∧
      ∀ b', b.deletePrice side price = .ok b' →
        ∀ other, other ≠ side → b'.levels other = b.levels other := by
  intro b q
  have hquoted : Quoted depth q b :=
    quoted_foldl (quoted_create symbol securityId tick session hpos hmax) calls
  have htidy := hquoted.tidy
  refine ⟨fun side => ⟨htidy.ordered side, (htidy.ordered side).nodup,
    hquoted.depth ▸ htidy.bounded side, hquoted.levels side⟩, fun side level => ?_,
    fun side price => ?_⟩
  · exact ⟨_, htidy.setLevel_eq (hquoted.levels side) level,
      fun other hother => levels_withLevels_of_ne b hother _⟩
  · obtain ⟨hdelete, -⟩ := htidy.deletePrice_eq (hquoted.levels side) price
    rw [hquoted.depth] at hdelete
    rw [hdelete]
    split
    · next hfails => exact ⟨⟨fun _ => hfails, fun _ => ⟨_, rfl⟩⟩, nofun⟩
    · next hgoes =>
      refine ⟨⟨fun ⟨_, herror⟩ => (nomatch herror), fun hfails => absurd hfails hgoes⟩, ?_⟩
      intro b' hb' other hother
      rw [← Except.ok.inj hb', levels_withLevels_of_ne b hother]

/-- A full side drops its worst level, and what was dropped can be deleted once more. -/
theorem quotes_of_priceCalls_full :
    let calls : List PriceCall := [.set .bid ⟨100, 5⟩, .set .bid ⟨99, 6⟩, .set .bid ⟨101, 7⟩]
    let b := calls.foldl PriceCall.run (create "A" 5 ⟨1, 0⟩ 2 none)
    let q := calls.foldl (PriceCall.quote 2) fun _ => ∅
    1 ≤ 2 ∧ 2 ≤ maxDepth ∧ b.levels .bid = [⟨101, 7⟩, ⟨100, 5⟩] ∧ b.levels .bid = (q .bid).levels ∧
      ¬ ∃ e, b.deletePrice .bid 99 = .error e := by
  intro calls b q
  have hlevels : b.levels .bid = [⟨101, 7⟩, ⟨100, 5⟩] := by decide +kernel
  obtain ⟨hsides, -, hdelete⟩ :=
    quotes_of_priceCalls "A" 5 ⟨1, 0⟩ none (show 1 ≤ 2 by decide) (show 2 ≤ maxDepth by decide)
      calls
  refine ⟨by decide, by decide, hlevels, (hsides .bid).2.2.2, ?_⟩
  rw [(hdelete .bid 99).1]
  change ¬ (99 ∉ (b.levels .bid).map PriceLevel.price ∧ _)
  rw [hlevels]
  decide

end Book

end MarketFeed
