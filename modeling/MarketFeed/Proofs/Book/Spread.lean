import MarketFeed.Proofs.Book.Depth

/-!
# The spread

The prices of a book are any signed words, and the spread is a difference of two of them that is not
checked. It is exact just as long as the best prices are no more than the largest signed word apart,
and turns negative beyond that: `spread_of_calls`. Prices that all lie within such a window never
come to that.
-/

namespace MarketFeed

namespace Book

variable {b c b' : Book} {side : Side} {i : Nat} {e : BookEntry} {level : PriceLevel}

/-! ## The spread of one book -/

/-- A difference of two words is exact, or too small by the wrap. -/
theorem toInt_sub_of_lt {x y : Int64} (h : x < y) :
    (y - x).toInt = if y.toInt - x.toInt ≤ Int64.maxValue.toInt then y.toInt - x.toInt
      else y.toInt - x.toInt - UInt64.size := by
  have hx := x.le_toInt
  have hy := y.toInt_lt
  rw [Int64.lt_iff_toInt_lt] at h
  rw [Int64.toInt_sub, Int.bmod_eq_emod, Int64.toInt_maxValue, UInt64.size]
  split <;> split <;> omega

theorem spread?_eq_some {bid ask : PriceLevel} (hbid : b.bids.head? = some bid)
    (hask : b.asks.head? = some ask) (h : bid.price < ask.price) :
    b.spread? = some ⟨ask.price - bid.price, b.tick.exponent⟩ := by
  simp [spread?, hbid, hask, h, toPrice]

theorem spread?_eq_none (h : ∀ bid ∈ b.bids.head?, ∀ ask ∈ b.asks.head?, ¬ bid.price < ask.price) :
    b.spread? = none := by
  unfold spread?
  cases hbid : b.bids.head? with
  | none => rfl
  | some bid =>
    cases hask : b.asks.head? with
    | none => rfl
    | some ask => simp [h bid hbid ask hask]

/-! ## Where the prices come from -/

/-- Each level of the book has one of these prices. -/
def Priced (p : Int64 → Prop) (b : Book) : Prop := ∀ side, ∀ level ∈ b.levels side, p level.price

namespace Priced

variable {p : Int64 → Prop}

theorem congr (h : b.Priced p) (hlevels : ∀ side, b'.levels side = b.levels side) :
    b'.Priced p := by
  intro side level hlevel
  rw [hlevels] at hlevel
  exact h side level hlevel

theorem withLevels (h : b.Priced p) {levels : List PriceLevel}
    (hlevels : ∀ level ∈ levels, p level.price) : (b.withLevels side levels).Priced p := by
  intro other level hlevel
  by_cases hother : other = side
  · subst hother
    rw [levels_withLevels] at hlevel
    exact hlevels level hlevel
  · rw [levels_withLevels_of_ne b hother] at hlevel
    exact h other level hlevel

theorem newLevel (h : b.Priced p) (hlevel : p level.price)
    (hnew : b.newLevel side i level = .ok b') : b'.Priced p := by
  unfold Book.newLevel at hnew
  dsimp only at hnew
  split at hnew
  · rwa [← Except.ok.inj hnew]
  · split at hnew
    · cases hnew
    · next hnear =>
      rw [← Except.ok.inj hnew]
      refine h.withLevels fun other hother => ?_
      rcases (List.mem_insertIdx (Nat.le_of_not_lt hnear)).1 (List.mem_of_mem_take hother) with
        rfl | hmem
      · exact hlevel
      · exact h side other hmem

theorem resizeAt (h : b.Priced p) (size : Int64) : (b.resizeAt side i size).Priced p := by
  refine h.withLevels fun other hother => ?_
  obtain ⟨j, hj⟩ := List.mem_iff_getElem?.1 hother
  rw [List.getElem?_modify, Option.map_eq_map, Option.map_eq_some_iff] at hj
  obtain ⟨level, hlevel, rfl⟩ := hj
  have hprice := h side level (List.mem_of_getElem? hlevel)
  split <;> exact hprice

theorem eraseAt (h : b.Priced p) :
    (b.withLevels side ((b.levels side).eraseIdx i)).Priced p :=
  h.withLevels fun other hother => h side other (List.mem_of_mem_eraseIdx hother)

theorem editAt (h : b.Priced p) {price : Option Int64} {edit : Book → Book}
    (hedit : (edit b).Priced p) (hb : b.editAt side i price edit = .ok b') : b'.Priced p := by
  rcases editAt_eq_ok hb with ⟨-, rfl⟩ | ⟨-, rfl, -⟩
  · exact h
  · exact hedit

theorem setLevel (h : b.Priced p) (hlevel : p level.price)
    (hset : b.setLevel side level = .ok b') : b'.Priced p := by
  unfold Book.setLevel at hset
  split at hset
  · rw [← Except.ok.inj hset]
    exact h.resizeAt _
  · exact h.newLevel hlevel hset

theorem deletePrice (h : b.Priced p) {price : Int64}
    (hdelete : b.deletePrice side price = .ok b') : b'.Priced p := by
  unfold Book.deletePrice at hdelete
  split at hdelete
  · rw [← Except.ok.inj hdelete]
    exact h.eraseAt
  · split at hdelete
    · rwa [← Except.ok.inj hdelete]
    · cases hdelete

theorem applyTo (h : b.Priced p) (he : ∀ ticks, b.entryTicks e = .ok (some ticks) → p ticks)
    (happly : b.applyTo side e = .ok b') : b'.Priced p := by
  unfold Book.applyTo at happly
  cases hticks : b.entryTicks e with
  | error error => simp [hticks, bind, Except.bind] at happly
  | ok price =>
    rw [hticks] at happly
    cases haction : e.action with
    | new =>
      cases hlevel : e.level with
      | some i =>
        rw [haction, hlevel] at happly
        obtain ⟨ticks, rfl, hnew⟩ := entryLevel_bind_eq_ok (f := b.newLevel side i) happly
        exact h.newLevel (he ticks hticks) hnew
      | none =>
        rw [haction, hlevel] at happly
        obtain ⟨ticks, rfl, hset⟩ := entryLevel_bind_eq_ok (f := b.setLevel side) happly
        exact h.setLevel (he ticks hticks) hset
    | change =>
      cases hlevel : e.level with
      | some i =>
        rw [haction, hlevel] at happly
        obtain ⟨ticks, -, hchange⟩ := entryLevel_bind_eq_ok (f := b.changeLevel side i) happly
        exact h.editAt (h.resizeAt _) ((changeLevel_eq b side i _).symm.trans hchange)
      | none =>
        rw [haction, hlevel] at happly
        obtain ⟨ticks, rfl, hset⟩ := entryLevel_bind_eq_ok (f := b.setLevel side) happly
        exact h.setLevel (he ticks hticks) hset
    | delete =>
      cases hlevel : e.level with
      | some i =>
        rw [haction, hlevel] at happly
        exact h.editAt h.eraseAt ((deleteLevel_eq b side i price).symm.trans happly)
      | none =>
        rw [haction, hlevel] at happly
        obtain ⟨ticks, -, hdelete⟩ :=
          entryLevel_bind_eq_ok (f := fun level => b.deletePrice side level.price) happly
        exact h.deletePrice hdelete

theorem apply (h : b.Priced p) (he : ∀ ticks, b.entryTicks e = .ok (some ticks) → p ticks) :
    (b.apply e).2.Priced p := by
  cases hside : e.kind.side? with
  | none =>
    simp only [Book.apply, hside]
    intro side level hlevel
    cases side <;> cases hlevel
  | some side =>
    rw [apply_of_side hside]
    cases happly : b.applyTo side e with
    | error error => exact h.congr fun side => by cases side <;> rfl
    | ok applied => exact (h.applyTo he happly).congr fun side => by cases side <;> rfl

end Priced

/-! ## Runs -/

/-- A call that can bring a new price. -/
inductive LevelCall where
  | apply (e : BookEntry)
  | set (side : Side) (level : PriceLevel)
  | new (side : Side) (i : Nat) (level : PriceLevel)

namespace LevelCall

/-- The book after a call, which leaves it as it is if it fails. -/
def run (b : Book) : LevelCall → Book
  | apply e => (b.apply e).2
  | set side level => (b.setLevel side level).toOption.getD b
  | new side i level => (b.newLevel side i level).toOption.getD b

/-- The price that a call brings to a book of these terms. -/
def price? (b : Book) : LevelCall → Option Int64
  | apply e => (b.entryTicks e).toOption.join
  | set _ level | new _ _ level => some level.price

theorem terms_run (b : Book) (c : LevelCall) : (c.run b).terms = b.terms := by
  have hedits {side : Side} {x : Except BookError Book} (h : Edits side b b x x) :
      (x.toOption.getD b).terms = b.terms := by
    obtain ⟨r, hr, -⟩ := h
    rw [hr]
    cases r with
    | error error => rfl
    | ok levels => exact terms_withLevels b side levels
  cases c with
  | apply e => exact (keeps_apply b e).terms
  | set side level => exact hedits (setLevel_edits (.refl b) side level)
  | new side i level => exact hedits (newLevel_edits (.refl b) side i level)

theorem price?_congr (h : b.terms = c.terms) (call : LevelCall) :
    call.price? b = call.price? c := by
  cases call with
  | apply e => simp only [price?, entryTicks, priceInTicks, tick_of_terms h]
  | set side level => rfl
  | new side i level => rfl

end LevelCall

theorem Priced.run {p : Int64 → Prop} (h : b.Priced p) {call : LevelCall}
    (hcall : ∀ price ∈ call.price? b, p price) : (call.run b).Priced p := by
  have hedit {x : Except BookError Book} (hx : ∀ b', x = .ok b' → b'.Priced p) :
      (x.toOption.getD b).Priced p := by
    cases x with
    | error error => exact h
    | ok b' => exact hx b' rfl
  cases call with
  | apply e =>
    refine h.apply fun ticks hticks => hcall ticks ?_
    simp [LevelCall.price?, hticks, Except.toOption]
  | set side level => exact hedit fun b' hset => h.setLevel (hcall level.price rfl) hset
  | new side i level => exact hedit fun b' hnew => h.newLevel (hcall level.price rfl) hnew

theorem terms_foldl_run (b : Book) (calls : List LevelCall) :
    (calls.foldl LevelCall.run b).terms = b.terms := by
  induction calls generalizing b with
  | nil => rfl
  | cons call calls ih => exact (ih _).trans (LevelCall.terms_run b call)

theorem Priced.foldl_run {p : Int64 → Prop} (h : b.Priced p) {calls : List LevelCall}
    (hcalls : ∀ call ∈ calls, ∀ price ∈ call.price? b, p price) :
    (calls.foldl LevelCall.run b).Priced p := by
  induction calls generalizing b with
  | nil => exact h
  | cons call calls ih =>
    refine ih (h.run (hcalls call List.mem_cons_self)) fun other hother price hprice => ?_
    rw [LevelCall.price?_congr (LevelCall.terms_run b call)] at hprice
    exact hcalls other (List.mem_cons_of_mem _ hother) price hprice

/--
However a new book came about, by entries and by levels that were set or inserted: there is no
spread unless both sides have levels and the best bid is below the best ask. Then it is given at the
tick's exponent, and is the difference of the two prices if that is a signed word; otherwise it is
too small by all words, and negative. It is always exact if all prices that were brought lie within
a window of the nonnegative words, as they do where none of them is negative.
-/
theorem spread_of_calls (symbol : String) (securityId : UInt64) (tick : Decimal) (depth : Nat)
    (session : Option String) (calls : List LevelCall) :
    let new := create symbol securityId tick depth session
    let b := calls.foldl LevelCall.run new
    ((∀ bid ∈ b.bids.head?, ∀ ask ∈ b.asks.head?, ¬ bid.price < ask.price) → b.spread? = none) ∧
    ∀ bid ∈ b.bids.head?, ∀ ask ∈ b.asks.head?, bid.price < ask.price →
      ∃ ticks, b.spread? = some ⟨ticks, tick.exponent⟩ ∧
        (ask.price.toInt - bid.price.toInt ≤ Int64.maxValue.toInt →
          ticks.toInt = ask.price.toInt - bid.price.toInt) ∧
        (Int64.maxValue.toInt < ask.price.toInt - bid.price.toInt →
          ticks.toInt = ask.price.toInt - bid.price.toInt - UInt64.size ∧ ticks < 0) ∧
        ∀ low : Int, (∀ call ∈ calls, ∀ price ∈ call.price? new,
            low ≤ price.toInt ∧ price.toInt ≤ low + Int64.maxValue.toInt) →
          ticks.toInt = ask.price.toInt - bid.price.toInt := by
  intro new b
  refine ⟨spread?_eq_none, fun bid hbid ask hask hlt => ?_⟩
  have hticks := toInt_sub_of_lt hlt
  have hexponent : b.tick.exponent = tick.exponent := by
    rw [tick_of_terms (terms_foldl_run new calls)]
    rfl
  have hupper := ask.price.toInt_lt
  have hlower := bid.price.le_toInt
  refine ⟨_, hexponent ▸ spread?_eq_some hbid hask hlt, fun hnear => ?_, fun hfar => ?_,
    fun low hlow => ?_⟩
  · rwa [if_pos hnear] at hticks
  · rw [if_neg (Int.not_le.2 hfar)] at hticks
    refine ⟨hticks, ?_⟩
    rw [Int64.lt_iff_toInt_lt, hticks, Int64.toInt_zero, UInt64.size]
    omega
  · have hnew : new.Priced fun price =>
        low ≤ price.toInt ∧ price.toInt ≤ low + Int64.maxValue.toInt := by
      intro side level hlevel
      cases side <;> cases hlevel
    have hpriced := hnew.foldl_run hlow
    have hbid' := hpriced .bid bid (List.mem_of_mem_head? hbid)
    have hask' := hpriced .ask ask (List.mem_of_mem_head? hask)
    rwa [if_pos (by omega)] at hticks

/-- Two bids and an ask within a window. -/
theorem spread_of_calls_near :
    let new := create "A" 5 ⟨1, 0⟩ 3 none
    let calls : List LevelCall :=
      [.apply (bid .new (-4) none), .set .bid ⟨-2, 1⟩, .new .ask 0 ⟨3, 1⟩]
    let b := calls.foldl LevelCall.run new
    b.bids.head? = some ⟨-2, 1⟩ ∧ b.asks.head? = some ⟨3, 1⟩ ∧
      (∀ call ∈ calls, ∀ price ∈ call.price? new,
        -4 ≤ price.toInt ∧ price.toInt ≤ -4 + Int64.maxValue.toInt) ∧
      ∃ ticks, b.spread? = some ⟨ticks, 0⟩ ∧ ticks.toInt = 3 - -2 := by
  intro new calls b
  have hbid : b.bids.head? = some ⟨-2, 1⟩ := by decide +kernel
  have hask : b.asks.head? = some ⟨3, 1⟩ := by decide +kernel
  have hprices : calls.map (LevelCall.price? new) = [some (-4), some (-2), some 3] := by
    decide +kernel
  have hlow : ∀ call ∈ calls, ∀ price ∈ call.price? new,
      -4 ≤ price.toInt ∧ price.toInt ≤ -4 + Int64.maxValue.toInt := by
    intro call hcall price hprice
    have hmem := List.mem_map_of_mem (f := LevelCall.price? new) hcall
    rw [hprices, hprice] at hmem
    simp only [List.mem_cons, Option.some.injEq, List.not_mem_nil, or_false] at hmem
    rcases hmem with rfl | rfl | rfl <;> decide
  obtain ⟨ticks, hspread, -, -, hexact⟩ :=
    (spread_of_calls "A" 5 ⟨1, 0⟩ 3 none calls).2 ⟨-2, 1⟩ hbid ⟨3, 1⟩ hask (by decide)
  exact ⟨hbid, hask, hlow, ticks, hspread, hexact (-4) hlow⟩

/-- The lowest price is bid, and the highest one is asked. -/
def extremes : List LevelCall :=
  [.apply (bid .new Int64.minValue none), .set .ask ⟨Int64.maxValue, 1⟩]

/-- The book takes both prices, which are all words apart, and the spread is negative. -/
theorem spread_wraps :
    let b := extremes.foldl LevelCall.run (create "A" 5 ⟨1, 0⟩ 3 none)
    b.bids = [⟨Int64.minValue, 1⟩] ∧ b.asks = [⟨Int64.maxValue, 1⟩] ∧
      Int64.minValue < Int64.maxValue ∧
      Int64.maxValue.toInt - Int64.minValue.toInt = UInt64.size - 1 ∧
      b.spread? = some ⟨-1, 0⟩ := by
  decide +kernel

end Book

end MarketFeed
