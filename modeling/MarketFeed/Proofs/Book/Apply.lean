import MarketFeed.Proofs.Book.Levels

/-!
# What an entry does to a book

An entry puts other levels on a side, and the terms and the levels of the book alone decide which.
An entry that is addressed by its price keeps the levels in order.
-/

namespace MarketFeed

namespace Book

variable {b c b' : Book} {side : Side} {e : BookEntry}

/-- What is settled once and for all. -/
def terms (b : Book) : Book :=
  { b with
    bids := [], asks := [], rptSeq := 0, isSubscribed := false, isActive := false, isEmpty := false }

theorem tick_of_terms (h : b.terms = c.terms) : b.tick = c.tick := by
  have := congrArg Book.tick h
  exact this

theorem depth_of_terms (h : b.terms = c.terms) : b.depth = c.depth := by
  have := congrArg Book.depth h
  exact this

theorem session_of_terms (h : b.terms = c.terms) : b.session = c.session := by
  have := congrArg Book.session h
  exact this

/-- The terms and the levels are the same. -/
structure Alike (b c : Book) : Prop where
  terms : b.terms = c.terms
  levels : ∀ side, b.levels side = c.levels side

theorem Alike.refl (b : Book) : b.Alike b := ⟨rfl, fun _ => rfl⟩

@[simp] theorem withLevels_self (b : Book) (side : Side) :
    b.withLevels side (b.levels side) = b := by
  cases side <;> rfl

@[simp] theorem terms_withLevels (b : Book) (side : Side) (levels : List PriceLevel) :
    (b.withLevels side levels).terms = b.terms := by
  cases side <;> rfl

theorem Alike.withLevels (h : b.Alike c) (side : Side) (levels : List PriceLevel) :
    (b.withLevels side levels).Alike (c.withLevels side levels) := by
  refine ⟨?_, fun other => ?_⟩
  · rw [terms_withLevels, terms_withLevels, h.terms]
  · by_cases hother : other = side
    · rw [hother, levels_withLevels, levels_withLevels]
    · rw [levels_withLevels_of_ne b hother, levels_withLevels_of_ne c hother, h.levels]

/-- Both books get the same levels on a side, or the same error. -/
def Edits (side : Side) (b c : Book) (x y : Except BookError Book) : Prop :=
  ∃ r : Except BookError (List PriceLevel), x = r.map (b.withLevels side) ∧
    y = r.map (c.withLevels side)

namespace Edits

variable {x y : Except BookError Book}

theorem ok (side : Side) (b c : Book) (levels : List PriceLevel) :
    Edits side b c (.ok (b.withLevels side levels)) (.ok (c.withLevels side levels)) :=
  ⟨.ok levels, rfl, rfl⟩

theorem error (side : Side) (b c : Book) (e : BookError) : Edits side b c (.error e) (.error e) :=
  ⟨.error e, rfl, rfl⟩

theorem same (h : b.Alike c) (side : Side) : Edits side b c (.ok b) (.ok c) := by
  refine ⟨.ok (b.levels side), ?_, ?_⟩
  · simp [Except.map]
  · simp [Except.map, h.levels]

end Edits

variable (h : b.Alike c)
include h

theorem newLevel_edits (side : Side) (i : Nat) (level : PriceLevel) :
    Edits side b c (b.newLevel side i level) (c.newLevel side i level) := by
  unfold newLevel
  rw [← depth_of_terms h.terms, ← h.levels]
  dsimp only
  split
  · exact .same h side
  · split
    · exact .error side b c _
    · exact .ok side b c _

theorem levelAt_alike (side : Side) (i : Nat) (price : Option Int64) :
    b.levelAt side i price = c.levelAt side i price := by
  unfold levelAt
  rw [h.levels]

theorem changeLevel_edits (side : Side) (i : Nat) (level : PriceLevel) :
    Edits side b c (b.changeLevel side i level) (c.changeLevel side i level) := by
  unfold changeLevel
  rw [← depth_of_terms h.terms, ← levelAt_alike h]
  split
  · exact .same h side
  · cases b.levelAt side i (some level.price) with
    | error error => exact .error side b c error
    | ok found =>
      simp only [resizeAt, ← h.levels]
      exact .ok side b c _

theorem deleteLevel_edits (side : Side) (i : Nat) (price : Option Int64) :
    Edits side b c (b.deleteLevel side i price) (c.deleteLevel side i price) := by
  unfold deleteLevel
  rw [← depth_of_terms h.terms, ← levelAt_alike h, ← h.levels]
  split
  · exact .same h side
  · cases b.levelAt side i price with
    | error error => exact .error side b c error
    | ok found => exact .ok side b c _

theorem setLevel_edits (side : Side) (level : PriceLevel) :
    Edits side b c (b.setLevel side level) (c.setLevel side level) := by
  unfold setLevel
  rw [← h.levels]
  cases side.locate (b.levels side) level.price with
  | found i =>
    simp only [resizeAt, ← h.levels]
    exact .ok side b c _
  | missing i => exact newLevel_edits h side i level

theorem deletePrice_edits (side : Side) (price : Int64) :
    Edits side b c (b.deletePrice side price) (c.deletePrice side price) := by
  unfold deletePrice
  rw [← h.levels, ← depth_of_terms h.terms]
  cases side.locate (b.levels side) price with
  | found i => exact .ok side b c _
  | missing i =>
    dsimp only
    split
    · exact .same h side
    · exact .error side b c _

theorem applyTo_edits (side : Side) (e : BookEntry) :
    Edits side b c (b.applyTo side e) (c.applyTo side e) := by
  have hticks : c.entryTicks e = b.entryTicks e := by
    simp only [entryTicks, priceInTicks, tick_of_terms h.terms]
  unfold applyTo
  rw [hticks]
  cases b.entryTicks e with
  | error error => exact .error side b c error
  | ok price =>
    have hedit : ∀ f : Book → PriceLevel → Except BookError Book,
        (∀ level, Edits side b c (f b level) (f c level)) →
          Edits side b c (entryLevel e price >>= f b) (entryLevel e price >>= f c) := by
      intro f hf
      cases entryLevel e price with
      | error error => exact .error side b c error
      | ok level => exact hf level
    cases e.action with
    | new =>
      cases e.level with
      | none => exact hedit (·.setLevel side ·) (setLevel_edits h side)
      | some i => exact hedit (·.newLevel side i ·) (newLevel_edits h side i)
    | change =>
      cases e.level with
      | none => exact hedit (·.setLevel side ·) (setLevel_edits h side)
      | some i => exact hedit (·.changeLevel side i ·) (changeLevel_edits h side i)
    | delete =>
      cases e.level with
      | none =>
        exact hedit (·.deletePrice side ·.price) fun level => deletePrice_edits h side level.price
      | some i => exact deleteLevel_edits h side i price

/-- On books with the same terms and levels an entry comes to the same. -/
theorem apply_alike (e : BookEntry) :
    (b.apply e).1 = (c.apply e).1 ∧ (b.apply e).2.Alike (c.apply e).2 := by
  unfold apply
  cases e.kind.side? with
  | none => exact ⟨rfl, h.terms, fun side => by cases side <;> rfl⟩
  | some side =>
    have hquoted : ({ b with isEmpty := false } : Book).Alike { c with isEmpty := false } := by
      refine ⟨h.terms, fun side => ?_⟩
      have := h.levels side
      cases side <;> exact this
    obtain ⟨r, hb, hc⟩ := applyTo_edits hquoted side e
    dsimp only
    rw [hb, hc]
    cases r with
    | error error => exact ⟨rfl, hquoted⟩
    | ok levels => exact ⟨rfl, hquoted.withLevels side levels⟩

omit h

/-- What an entry leaves as it is. -/
structure Keeps (b b' : Book) : Prop where
  terms : b'.terms = b.terms
  rptSeq : b'.rptSeq = b.rptSeq
  isSubscribed : b'.isSubscribed = b.isSubscribed
  isActive : b'.isActive = b.isActive

theorem Keeps.trans (h : b.Keeps c) (h' : c.Keeps b') : b.Keeps b' :=
  ⟨h'.terms.trans h.terms, h'.rptSeq.trans h.rptSeq, h'.isSubscribed.trans h.isSubscribed,
    h'.isActive.trans h.isActive⟩

theorem keeps_withLevels (b : Book) (side : Side) (levels : List PriceLevel) :
    b.Keeps (b.withLevels side levels) := by
  cases side <;> exact ⟨rfl, rfl, rfl, rfl⟩

theorem keeps_apply (b : Book) (e : BookEntry) : b.Keeps (b.apply e).2 := by
  unfold apply
  cases e.kind.side? with
  | none => exact ⟨rfl, rfl, rfl, rfl⟩
  | some side =>
    obtain ⟨r, hb, -⟩ := applyTo_edits (.refl { b with isEmpty := false }) side e
    dsimp only
    rw [hb]
    cases r with
    | error error => exact ⟨rfl, rfl, rfl, rfl⟩
    | ok levels =>
      obtain ⟨hterms, hrptSeq, hsubscribed, hactive⟩ :=
        keeps_withLevels { b with isEmpty := false } side levels
      exact ⟨hterms, hrptSeq, hsubscribed, hactive⟩

/-! ## Entries and their runs -/

/-- An entry of a side is tried on the book as it is, and clears the mark of emptiness. -/
theorem apply_of_side (hside : e.kind.side? = some side) :
    b.apply e =
      match b.applyTo side e with
      | .ok b' => (.ok (), { b' with isEmpty := false })
      | .error error => (.error error, { b with isEmpty := false }) := by
  have halike : b.Alike { b with isEmpty := false } := ⟨rfl, fun side => by cases side <;> rfl⟩
  obtain ⟨r, hb, hcleared⟩ := applyTo_edits halike side e
  unfold apply
  rw [hside]
  dsimp only
  rw [hb, hcleared]
  cases r with
  | error error => rfl
  | ok levels => cases side <;> rfl

/-- The book after entries that are applied one after another, whether they are taken or not. -/
def applyAll (b : Book) (entries : List BookEntry) : Book :=
  entries.foldl (fun b e => (b.apply e).2) b

theorem applyAll_cons (b : Book) (e : BookEntry) (entries : List BookEntry) :
    b.applyAll (e :: entries) = (b.apply e).2.applyAll entries := rfl

theorem applyAll_concat (b : Book) (entries : List BookEntry) (e : BookEntry) :
    b.applyAll (entries ++ [e]) = ((b.applyAll entries).apply e).2 := by
  simp [applyAll]

/-! ## Entries addressed by price -/

theorem Tidy.of_levels (hb : b.Tidy) (hlevels : ∀ side, b'.levels side = b.levels side)
    (hdepth : b'.depth = b.depth) : b'.Tidy := by
  refine ⟨fun side => ?_, fun side => ?_⟩
  · rw [hlevels]
    exact hb.ordered side
  · rw [hlevels, hdepth]
    exact hb.bounded side

theorem tidy_of_empty (hempty : ∀ side, b.levels side = []) : b.Tidy := by
  refine ⟨fun side => ?_, fun side => ?_⟩
  · rw [hempty]
    exact .nil
  · rw [hempty]
    exact Nat.zero_le _

theorem entryLevel_bind_eq_ok {α : Type} {price : Option Int64}
    {f : PriceLevel → Except BookError α} {r : α} (h : entryLevel e price >>= f = .ok r) :
    ∃ ticks, price = some ticks ∧ f ⟨ticks, e.size⟩ = .ok r := by
  cases price with
  | none => simp [entryLevel, bind, Except.bind] at h
  | some ticks => exact ⟨ticks, rfl, h⟩

theorem Tidy.applyTo (hb : b.Tidy) (hlevel : e.level = none)
    (happly : b.applyTo side e = .ok b') : b'.Tidy := by
  unfold Book.applyTo at happly
  cases hticks : b.entryTicks e with
  | error error => simp [hticks, bind, Except.bind] at happly
  | ok price =>
    rw [hticks, hlevel] at happly
    cases haction : e.action with
    | new =>
      rw [haction] at happly
      obtain ⟨ticks, -, hset⟩ := entryLevel_bind_eq_ok (f := b.setLevel side) happly
      exact hb.setLevel hset
    | change =>
      rw [haction] at happly
      obtain ⟨ticks, -, hset⟩ := entryLevel_bind_eq_ok (f := b.setLevel side) happly
      exact hb.setLevel hset
    | delete =>
      rw [haction] at happly
      obtain ⟨ticks, -, hdelete⟩ :=
        entryLevel_bind_eq_ok (f := fun level => b.deletePrice side level.price) happly
      exact hb.deletePrice hdelete

/-- An entry keeps the levels in order if its edit of a side does. -/
theorem Tidy.apply_of_applyTo (hb : b.Tidy)
    (happlyTo : ∀ side b', e.kind.side? = some side → b.applyTo side e = .ok b' → b'.Tidy) :
    (b.apply e).2.Tidy := by
  cases hside : e.kind.side? with
  | none =>
    simp only [Book.apply, hside]
    exact tidy_of_empty fun side => by cases side <;> rfl
  | some side =>
    rw [apply_of_side hside]
    cases happly : b.applyTo side e with
    | error error => exact hb.of_levels (fun side => by cases side <;> rfl) rfl
    | ok applied =>
      have happlied := happlyTo side applied hside happly
      exact happlied.of_levels (fun side => by cases side <;> rfl) rfl

/-- An entry addressed by its price keeps the levels in order. -/
theorem Tidy.apply (hb : b.Tidy) (hlevel : e.level = none) : (b.apply e).2.Tidy :=
  hb.apply_of_applyTo fun _ _ _ happly => hb.applyTo hlevel happly

/-- An entry of a new price sets a level. -/
theorem apply_stated {level : PriceLevel} {price : Decimal} (hside : e.kind.side? = some side)
    (haction : e.action = .new) (hlevel : e.level = none) (hprice : e.price = some price)
    (hticks : b.priceInTicks price = .ok level.price) (hsize : e.size = level.size) :
    b.apply e =
      match ({ b with isEmpty := false } : Book).setLevel side level with
      | .ok b' => (.ok (), b')
      | .error error => (.error error, { b with isEmpty := false }) := by
  have hentry : entryLevel e (some level.price) = .ok level := by
    rw [entryLevel, hsize]
  have hentryTicks :
      ({ b with isEmpty := false } : Book).entryTicks e = .ok (some level.price) := by
    unfold entryTicks
    rw [hprice]
    exact congrArg (Except.map some) hticks
  have happlyTo : ({ b with isEmpty := false } : Book).applyTo side e =
      ({ b with isEmpty := false } : Book).setLevel side level := by
    unfold Book.applyTo
    rw [hentryTicks, haction, hlevel]
    simp only [bind, Except.bind, hentry]
  unfold Book.apply
  cases hset : ({ b with isEmpty := false } : Book).setLevel side level with
  | ok b' => simp only [hside, happlyTo, hset]
  | error error => simp only [hside, happlyTo, hset]

/-- A new level at a price that no level has, while there is room for it. -/
theorem Tidy.apply_new (hb : b.Tidy) {level : PriceLevel} {price : Decimal}
    (hside : e.kind.side? = some side) (haction : e.action = .new) (hlevel : e.level = none)
    (hprice : e.price = some price) (hticks : b.priceInTicks price = .ok level.price)
    (hsize : e.size = level.size) (hnew : level.price ∉ (b.levels side).map PriceLevel.price)
    (hroom : (b.levels side).length < b.depth) :
    ∃ levels, b.apply e = (.ok (), ({ b with isEmpty := false } : Book).withLevels side levels) ∧
      levels.Perm (level :: b.levels side) := by
  have hquoted : ({ b with isEmpty := false } : Book).Tidy :=
    hb.of_levels (fun side => by cases side <;> rfl) rfl
  have hlevels : ({ b with isEmpty := false } : Book).levels side = b.levels side := by
    cases side <;> rfl
  rw [← hlevels] at hnew hroom
  obtain ⟨levels, hset, hperm⟩ := hquoted.setLevel_new hnew hroom
  refine ⟨levels, ?_, hlevels ▸ hperm⟩
  rw [apply_stated hside haction hlevel hprice hticks hsize, hset]

end Book

end MarketFeed
