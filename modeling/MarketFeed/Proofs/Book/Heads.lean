import MarketFeed.Proofs.Book.Apply

/-!
# The heads of deeper books

A book that keeps fewer levels drops those past its depth, and shows the first levels of a deeper
book. Each edit of a side either goes along with that of the deeper book or it does not, and that is
told by what the edit is about: a level in front of those that are lacking, or one of them.
-/

namespace MarketFeed

/-! ## The first levels of a side -/

namespace Side

variable {side : Side} {levels : List PriceLevel} {price : Int64}

theorem Ordered.index_unique (hlevels : side.Ordered levels) {i j : Nat} (hi : i < levels.length)
    (hj : j < levels.length) (h : levels[i].price = levels[j].price) : i = j := by
  rcases Nat.lt_trichotomy i j with hlt | heq | hgt
  · have hbetter := hlevels.getElem hi hj hlt
    rw [h, isBetter_irrefl] at hbetter
    cases hbetter
  · exact heq
  · have hbetter := hlevels.getElem hj hi hgt
    rw [h, isBetter_irrefl] at hbetter
    cases hbetter

theorem Locates.better {i j : Nat} (h : side.Locates levels price (.missing i))
    (hj : j < levels.length) (hji : j < i) : side.isBetter levels[j].price price = true :=
  h.2.1 _ (List.mem_take_iff_getElem.2 ⟨j, by omega, rfl⟩)

theorem Locates.worse {i j : Nat} (h : side.Locates levels price (.missing i))
    (hj : j < levels.length) (hij : i ≤ j) : side.isBetter price levels[j].price = true :=
  h.2.2 _ (List.mem_drop_iff_getElem.2 ⟨j - i, by omega, by congr 1; omega⟩)

theorem Locates.ne_missing {i j : Nat} (hi : i < levels.length) (hprice : levels[i].price = price)
    (h : side.Locates levels price (.missing j)) : False := by
  have hself := isBetter_irrefl side price
  by_cases hij : i < j
  · have hbetter := h.better hi hij
    rw [hprice, hself] at hbetter
    cases hbetter
  · have hworse := h.worse hi (Nat.le_of_not_lt hij)
    rw [hprice, hself] at hworse
    cases hworse

/-- Between two places where a price is missing there is no level. -/
theorem Locates.missing_le {i j : Nat} (h : side.Locates levels price (.missing i))
    (h' : side.Locates levels price (.missing j)) : j ≤ i := by
  refine Nat.le_of_not_lt fun hlt => ?_
  have hi : i < levels.length := Nat.lt_of_lt_of_le hlt h'.1
  have hself := isBetter_trans (h.worse hi (Nat.le_refl i)) (h'.better hi hlt)
  rw [isBetter_irrefl] at hself
  cases hself

theorem Locates.unique (hlevels : side.Ordered levels) {l l' : Location}
    (h : side.Locates levels price l) (h' : side.Locates levels price l') : l = l' := by
  cases l with
  | found i =>
    obtain ⟨hi, hprice⟩ := h
    cases l' with
    | found j =>
      obtain ⟨hj, hprice'⟩ := h'
      rw [hlevels.index_unique hi hj (hprice.trans hprice'.symm)]
    | missing j => exact (h'.ne_missing hi hprice).elim
  | missing i =>
    cases l' with
    | found j => exact (h.ne_missing h'.1 h'.2).elim
    | missing j => rw [Nat.le_antisymm (h'.missing_le h) (h.missing_le h')]

end Side

/-- The place among the first `n` levels of what has this place among all of them. -/
def Location.among (n : Nat) : Location → Location
  | .found i => if i < n then .found i else .missing n
  | .missing i => .missing (min i n)

namespace Side

variable {side : Side} {levels heads : List PriceLevel} {price : Int64}

theorem Locates.among (hlevels : side.Ordered levels) (hheads : heads <+: levels) {l : Location}
    (h : side.Locates levels price l) : side.Locates heads price (l.among heads.length) := by
  have hle := hheads.length_le
  have hsame {j : Nat} (hj : j < heads.length) : heads[j] = levels[j] := hheads.getElem hj
  cases l with
  | found i =>
    obtain ⟨hi, hprice⟩ := h
    by_cases hlt : i < heads.length
    · rw [Location.among, if_pos hlt]
      exact ⟨hlt, by rw [hsame hlt, hprice]⟩
    · rw [Location.among, if_neg hlt]
      refine ⟨Nat.le_refl _, fun level hlevel => ?_, by simp⟩
      obtain ⟨j, hj, rfl⟩ := List.getElem_of_mem (List.mem_of_mem_take hlevel)
      rw [hsame hj, ← hprice]
      exact hlevels.getElem (by omega) hi (by omega)
  | missing i =>
    refine ⟨Nat.min_le_right _ _, fun level hlevel => ?_, fun level hlevel => ?_⟩
    · obtain ⟨j, hj, rfl⟩ := List.mem_take_iff_getElem.1 hlevel
      rw [hsame (by omega)]
      exact h.better (by omega) (by omega)
    · obtain ⟨j, hj, rfl⟩ := List.mem_drop_iff_getElem.1 hlevel
      rw [hsame (by omega)]
      exact h.worse (by omega) (by omega)

/-- A search among the first levels finds the price where it is, or behind them all. -/
theorem locate_of_prefix (hlevels : side.Ordered levels) (hheads : heads <+: levels)
    (price : Int64) :
    side.locate heads price = (side.locate levels price).among heads.length := by
  have hordered : side.Ordered heads := hlevels.sublist hheads.sublist
  exact (locates_locate hordered price).unique hordered
    ((locates_locate hlevels price).among hlevels hheads)

end Side

theorem prefix_insertIdx {α : Type} {xs ys : List α} (h : xs <+: ys) {i : Nat}
    (hi : i ≤ xs.length) (x : α) : xs.insertIdx i x <+: ys.insertIdx i x := by
  have hle := h.length_le
  rw [List.prefix_iff_getElem?] at h ⊢
  intro j hj
  rw [List.length_insertIdx_of_le_length hi] at hj
  rw [List.getElem?_insertIdx, List.getElem_insertIdx]
  split
  · exact h j (by omega)
  · split
    · rw [if_pos (by omega)]
    · exact h (j - 1) (by omega)

theorem prefix_insertIdx_of_le {α : Type} {xs ys : List α} (h : xs <+: ys) {i : Nat}
    (hi : xs.length ≤ i) (x : α) : xs <+: ys.insertIdx i x := by
  rw [List.prefix_iff_getElem?] at h ⊢
  intro j hj
  rw [List.getElem?_insertIdx_of_lt (by omega), h j hj]

theorem prefix_modify {α : Type} {xs ys : List α} (h : xs <+: ys) (i : Nat) (f : α → α) :
    xs.modify i f <+: ys.modify i f := by
  rw [List.prefix_iff_getElem?] at h ⊢
  intro j hj
  rw [List.length_modify] at hj
  simp [List.getElem?_modify, List.getElem_modify, h j hj]

namespace Book

variable {b b' c c' : Book} {side : Side} {e : BookEntry} {i : Nat}

@[simp] theorem tick_withLevels (b : Book) (side : Side) (levels : List PriceLevel) :
    (b.withLevels side levels).tick = b.tick := by
  cases side <;> rfl

/-! ## Books that show the head of deeper ones -/

/-- The book has the tick of the other one, is no deeper, and its levels are the first of those. -/
structure Heads (c b : Book) : Prop where
  tick : c.tick = b.tick
  depth : c.depth ≤ b.depth
  bounded : ∀ side, (c.levels side).length ≤ c.depth
  levels : ∀ side, c.levels side <+: b.levels side

theorem Heads.withLevels (h : c.Heads b) {heads levels : List PriceLevel}
    (hbounded : heads.length ≤ c.depth) (hlevels : heads <+: levels) :
    (c.withLevels side heads).Heads (b.withLevels side levels) := by
  refine ⟨by simpa using h.tick, by simpa using h.depth, fun other => ?_, fun other => ?_⟩
  · rw [depth_withLevels]
    by_cases hother : other = side
    · rwa [hother, levels_withLevels]
    · rw [levels_withLevels_of_ne c hother]
      exact h.bounded other
  · by_cases hother : other = side
    · rwa [hother, levels_withLevels, levels_withLevels]
    · rw [levels_withLevels_of_ne c hother, levels_withLevels_of_ne b hother]
      exact h.levels other

/-- What only happens behind the levels shown need not be followed. -/
theorem Heads.behind (h : c.Heads b) {levels : List PriceLevel}
    (hlevels : c.levels side <+: levels) : c.Heads (b.withLevels side levels) := by
  have hboth : (c.withLevels side (c.levels side)).Heads (b.withLevels side levels) :=
    h.withLevels (h.bounded side) hlevels
  rwa [withLevels_self] at hboth

/-- The best level that a book lacks although it has room for it. -/
def lacks? (c b : Book) (side : Side) : Option PriceLevel :=
  if (c.levels side).length < c.depth then (b.levels side)[(c.levels side).length]? else none

/--
The entry of a side is about none of the levels that the book lacks although it has room for them.
An index is in front of them or past the depth, and so is a price better than theirs. A new level
may also be put right in front of them, and the first of them may be stated once more.
-/
def SparesSide (c b : Book) (side : Side) (e : BookEntry) : Prop :=
  ∀ lost ∈ c.lacks? b side,
    match e.level with
    | some i => i < (c.levels side).length ∨ c.depth ≤ i ∨
        e.action = .new ∧ i = (c.levels side).length
    | none => ∀ price, b.entryTicks e = .ok (some price) →
        side.isBetter price lost.price = true ∨ e.action ≠ .delete ∧ price = lost.price

/-- The entry is about no level that the book lacks although it has room for it. -/
def Spares (c b : Book) (e : BookEntry) : Prop := ∀ side ∈ e.kind.side?, c.SparesSide b side e

/--
Whether an edit of the shallow book goes along with that of the deep one is told by `spares`: it
leads to the head of the book `b'`, or fails, or leads to something else.
-/
structure Decides (spares : Prop) (side : Side) (x : Except BookError Book) (b' : Book) : Prop where
  follows : spares → ∃ c', x = .ok c' ∧ c'.Heads b'
  strays : ¬ spares → ∀ c', x = .ok c' → ¬ c'.levels side <+: b'.levels side

namespace Decides

variable {spares : Prop} {x : Except BookError Book}

theorem follow (hs : spares) (hx : x = .ok c') (h : c'.Heads b') : Decides spares side x b' :=
  ⟨fun _ => ⟨c', hx, h⟩, fun hn => absurd hs hn⟩

theorem fail {error : BookError} (hs : ¬ spares) (hx : x = .error error) :
    Decides spares side x b' :=
  ⟨fun h => absurd h hs, fun _ c' hok => by rw [hx] at hok; cases hok⟩

theorem stray (hs : ¬ spares) (hx : x = .ok c') (h : ¬ c'.levels side <+: b'.levels side) :
    Decides spares side x b' :=
  ⟨fun hspares => absurd hspares hs, fun _ c'' hok => by
    rw [hx] at hok
    rwa [← Except.ok.inj hok]⟩

theorem congr {spares' : Prop} (h : Decides spares side x b') (hiff : spares ↔ spares') :
    Decides spares' side x b' :=
  ⟨fun hs => h.follows (hiff.2 hs), fun hs => h.strays fun hs' => hs (hiff.1 hs')⟩

end Decides

theorem mem_lacks?_iff {lost : PriceLevel} :
    lost ∈ c.lacks? b side ↔ (c.levels side).length < c.depth ∧
      (b.levels side)[(c.levels side).length]? = some lost := by
  unfold lacks?
  split
  · next h => simp [h]
  · next h => simp [h]

theorem getElem_of_lacks? {lost : PriceLevel} (h : lost ∈ c.lacks? b side) :
    ∃ hk : (c.levels side).length < (b.levels side).length,
      (b.levels side)[(c.levels side).length] = lost :=
  List.getElem?_eq_some_iff.1 (mem_lacks?_iff.1 h).2

theorem lacks?_of_full (hfull : c.depth ≤ (c.levels side).length) : c.lacks? b side = none := by
  rw [lacks?, if_neg (by omega)]

/-! ## Entries addressed by index -/

/-- A new level goes along unless it is put behind a level that is lacking. -/
theorem Heads.newLevel_decides (h : c.Heads b) {level : PriceLevel}
    (hb : b.newLevel side i level = .ok b') :
    Decides (i ≤ (c.levels side).length ∨ c.depth ≤ i) side (c.newLevel side i level) b' := by
  have hdepth := h.depth
  have hbounded := h.bounded side
  have hlevels := h.levels side
  have hle := hlevels.length_le
  simp only [newLevel] at hb ⊢
  -- Past its depth the shallow book does nothing, and the deep one leaves the levels shown alone.
  by_cases hbelow : c.depth ≤ i
  · rw [if_pos hbelow]
    refine .follow (.inr hbelow) rfl ?_
    split at hb
    · rwa [← Except.ok.inj hb]
    · split at hb
      · cases hb
      · rw [← Except.ok.inj hb]
        refine h.behind (List.prefix_take_iff.2 ⟨?_, by omega⟩)
        exact prefix_insertIdx_of_le hlevels (by omega) level
  · rw [if_neg hbelow]
    rw [if_neg (by omega)] at hb
    split at hb
    · cases hb
    · rw [← Except.ok.inj hb]
      split
      · next hbehind => exact .fail (by omega) rfl
      · next hnear =>
        refine .follow (.inl (by omega)) rfl (h.withLevels ?_ ?_)
        · rw [List.length_take]
          exact Nat.min_le_left _ _
        · refine List.prefix_take_iff.2 ⟨?_, ?_⟩
          · exact (List.take_prefix _ _).trans (prefix_insertIdx hlevels (by omega) level)
          · rw [List.length_take]
            omega

theorem Heads.levelAt_eq (h : c.Heads b) (hi : i < (c.levels side).length) (price : Option Int64) :
    c.levelAt side i price = b.levelAt side i price := by
  have hlt := Nat.lt_of_lt_of_le hi (h.levels side).length_le
  simp only [levelAt, List.getElem?_eq_getElem hi, List.getElem?_eq_getElem hlt,
    (h.levels side).getElem hi]

theorem levelAt_of_le (hi : (c.levels side).length ≤ i) (price : Option Int64) :
    c.levelAt side i price = .error (.levelOutOfRange i (c.levels side).length) := by
  simp only [levelAt, List.getElem?_eq_none hi]

theorem lt_of_levelAt {price : Option Int64} {level : PriceLevel}
    (h : b.levelAt side i price = .ok level) : i < (b.levels side).length := by
  refine Nat.lt_of_not_le fun hle => ?_
  rw [levelAt_of_le hle] at h
  cases h

theorem Heads.resizeAt (h : c.Heads b) (side : Side) (i : Nat) (size : Int64) :
    (c.resizeAt side i size).Heads (b.resizeAt side i size) :=
  h.withLevels (by rw [List.length_modify]; exact h.bounded side)
    (prefix_modify (h.levels side) i _)

/-- Another size behind the levels shown need not be followed. -/
theorem Heads.resizeAt_behind (h : c.Heads b) (hi : (c.levels side).length ≤ i) (size : Int64) :
    c.Heads (b.resizeAt side i size) := by
  refine h.behind ?_
  have := prefix_modify (h.levels side) i fun level => { level with size }
  rwa [List.modify_eq_self hi] at this

theorem Heads.eraseAt (h : c.Heads b) (side : Side) (i : Nat) :
    (c.withLevels side ((c.levels side).eraseIdx i)).Heads
      (b.withLevels side ((b.levels side).eraseIdx i)) :=
  h.withLevels (Nat.le_trans (List.eraseIdx_sublist _ _).length_le (h.bounded side))
    ((h.levels side).eraseIdx i)

theorem Heads.eraseAt_behind (h : c.Heads b) (hi : (c.levels side).length ≤ i) :
    c.Heads (b.withLevels side ((b.levels side).eraseIdx i)) := by
  refine h.behind ?_
  have := (h.levels side).eraseIdx i
  rwa [List.eraseIdx_of_length_le hi] at this

/-- Edits the level at a position, once it is known to be the one that is meant. -/
def editAt (b : Book) (side : Side) (i : Nat) (price : Option Int64) (edit : Book → Book) :
    Except BookError Book :=
  if b.depth ≤ i then .ok b
  else do
    let _ ← b.levelAt side i price
    return edit b

theorem changeLevel_eq (b : Book) (side : Side) (i : Nat) (level : PriceLevel) :
    b.changeLevel side i level =
      b.editAt side i (some level.price) (·.resizeAt side i level.size) := rfl

theorem deleteLevel_eq (b : Book) (side : Side) (i : Nat) (price : Option Int64) :
    b.deleteLevel side i price =
      b.editAt side i price fun b => b.withLevels side ((b.levels side).eraseIdx i) := rfl

/-- An edit leaves the book as it is past the depth, and elsewhere it has a level to be made at. -/
theorem editAt_eq_ok {price : Option Int64} {edit : Book → Book}
    (h : b.editAt side i price edit = .ok b') :
    b.depth ≤ i ∧ b' = b ∨
      i < b.depth ∧ b' = edit b ∧ ∃ level, b.levelAt side i price = .ok level := by
  unfold editAt at h
  split at h
  · next hbelow => exact .inl ⟨hbelow, (Except.ok.inj h).symm⟩
  · next hwithin =>
    cases hat : b.levelAt side i price with
    | error error => simp [hat, bind, Except.bind] at h
    | ok level =>
      simp only [hat, bind, Except.bind, Pure.pure, Except.pure, Except.ok.injEq] at h
      exact .inr ⟨Nat.lt_of_not_le hwithin, h.symm, level, rfl⟩

/-- An edit goes along unless it is that of a level which is lacking. -/
theorem Heads.editAt_decides (h : c.Heads b) {price : Option Int64} {edit : Book → Book}
    (hboth : (edit c).Heads (edit b)) (hbehind : (c.levels side).length ≤ i → c.Heads (edit b))
    (hb : b.editAt side i price edit = .ok b') :
    Decides (i < (c.levels side).length ∨ c.depth ≤ i) side (c.editAt side i price edit) b' := by
  have hdepth := h.depth
  have hbounded := h.bounded side
  unfold editAt
  by_cases hbelow : c.depth ≤ i
  · rw [if_pos hbelow]
    refine .follow (.inr hbelow) rfl ?_
    rcases editAt_eq_ok hb with ⟨-, rfl⟩ | ⟨-, rfl, -⟩
    · exact h
    · exact hbehind (by omega)
  · rw [if_neg hbelow]
    rcases editAt_eq_ok hb with ⟨hpast, -⟩ | ⟨-, rfl, level, hat⟩
    · omega
    · by_cases hi : i < (c.levels side).length
      · rw [h.levelAt_eq hi, hat]
        exact .follow (.inl hi) rfl hboth
      · rw [levelAt_of_le (Nat.le_of_not_lt hi)]
        exact .fail (by omega) rfl

/-- A level that the book has room for is lacking as soon as the deep book has one there. -/
theorem sparesSide_index_iff (hlevel : e.level = some i)
    (hheld : (c.levels side).length ≤ i → i < c.depth →
      (e.action = .new → i ≠ (c.levels side).length) →
        (c.levels side).length < (b.levels side).length) :
    c.SparesSide b side e ↔ i < (c.levels side).length ∨ c.depth ≤ i ∨
      e.action = .new ∧ i = (c.levels side).length := by
  unfold SparesSide
  simp only [hlevel]
  constructor
  · intro h
    by_cases hnear : i < (c.levels side).length ∨ c.depth ≤ i
    · exact hnear.imp_right .inl
    · by_cases hnew : e.action = .new ∧ i = (c.levels side).length
      · exact .inr (.inr hnew)
      · have hlt := hheld (by omega) (by omega) fun haction heq => hnew ⟨haction, heq⟩
        exact h _ (mem_lacks?_iff.2 ⟨by omega, List.getElem?_eq_getElem hlt⟩)
  · exact fun h lost _ => h

/-! ## Entries addressed by price -/

theorem prefix_concat_iff {α : Type} {xs ys : List α} {x : α} :
    xs ++ [x] <+: ys ↔ xs <+: ys ∧ ys[xs.length]? = some x := by
  constructor
  · rintro ⟨zs, rfl⟩
    exact ⟨⟨x :: zs, by simp⟩, by simp⟩
  · rintro ⟨⟨zs, rfl⟩, hx⟩
    rw [List.getElem?_append_right (Nat.le_refl _), Nat.sub_self] at hx
    cases zs with
    | nil => cases hx
    | cons y zs =>
      obtain rfl := Option.some.inj hx
      exact ⟨zs, by simp⟩

theorem newLevel_length (b : Book) (side : Side) (level : PriceLevel) :
    b.newLevel side (b.levels side).length level =
      .ok (if b.depth ≤ (b.levels side).length then b
        else b.withLevels side (b.levels side ++ [level])) := by
  simp only [newLevel, Nat.lt_irrefl, if_false]
  split
  · rfl
  · rw [List.insertIdx_length_self, List.take_of_length_le (by simp; omega)]

theorem getElem?_newLevel {level : PriceLevel} (h : b.newLevel side i level = .ok b') {j : Nat}
    (hj : j < i) (hdepth : j < b.depth) : (b'.levels side)[j]? = (b.levels side)[j]? := by
  simp only [newLevel] at h
  split at h
  · rw [← Except.ok.inj h]
  · split at h
    · cases h
    · rw [← Except.ok.inj h, levels_withLevels, List.getElem?_take_of_lt hdepth,
        List.getElem?_insertIdx_of_lt hj]

/-- The price stands in front of the levels that the book lacks, or is that of the first of them. -/
def Reaches (c b : Book) (side : Side) (price : Int64) : Prop :=
  ∀ lost ∈ c.lacks? b side, side.isBetter price lost.price = true ∨ price = lost.price

theorem reaches_of_full (hfull : c.depth ≤ (c.levels side).length) (price : Int64) :
    c.Reaches b side price := by
  intro lost hlost
  rw [lacks?_of_full hfull] at hlost
  cases hlost

section Prices

variable {level : PriceLevel} {j : Nat}

/-- A level that is put behind the levels shown is right only if it is the first one lacking. -/
theorem newLevel_strays (hroom : (c.levels side).length < c.depth) {lost : PriceLevel}
    (hlost : (b.levels side)[(c.levels side).length]? = some lost)
    (hbetter : side.isBetter lost.price level.price = true)
    (hkept : (b'.levels side)[(c.levels side).length]? = some lost) :
    Decides (c.Reaches b side level.price) side
      (c.newLevel side (c.levels side).length level) b' := by
  rw [newLevel_length, if_neg (by omega)]
  refine .stray (fun hspares => ?_) rfl fun hprefix => ?_
  · rcases hspares lost (mem_lacks?_iff.2 ⟨hroom, hlost⟩) with hworse | heq
    · have hself := Side.isBetter_trans hworse hbetter
      rw [Side.isBetter_irrefl] at hself
      cases hself
    · rw [heq, Side.isBetter_irrefl] at hbetter
      cases hbetter
  · rw [levels_withLevels] at hprefix
    rw [(prefix_concat_iff.1 hprefix).2] at hkept
    rw [Option.some.inj hkept, Side.isBetter_irrefl] at hbetter
    cases hbetter

variable (h : c.Heads b)
include h

theorem Heads.resizeAt_shown (hordered : side.Ordered (b.levels side))
    (hj : j < (b.levels side).length)
    (hprice : (b.levels side)[j].price = level.price) (hshown : j < (c.levels side).length) :
    Decides (c.Reaches b side level.price) side (.ok (c.resizeAt side j level.size))
      (b.resizeAt side j level.size) := by
  refine .follow (fun lost hlost => .inl ?_) rfl (h.resizeAt side j level.size)
  obtain ⟨hk, rfl⟩ := getElem_of_lacks? hlost
  rw [← hprice]
  exact hordered.getElem hj hk hshown

/-- What is found in the deep book only is a new level of the shallow one. -/
theorem Heads.resizeAt_lost (hordered : side.Ordered (b.levels side))
    (hj : j < (b.levels side).length)
    (hprice : (b.levels side)[j].price = level.price) (hlost : (c.levels side).length ≤ j) :
    Decides (c.Reaches b side level.price) side (c.newLevel side (c.levels side).length level)
      (b.resizeAt side j level.size) := by
  have hshown := (h.resizeAt_behind hlost level.size).levels side
  rw [Book.resizeAt, levels_withLevels] at hshown
  by_cases hfull : c.depth ≤ (c.levels side).length
  · rw [newLevel_length, if_pos hfull]
    exact .follow (reaches_of_full hfull _) rfl (h.resizeAt_behind hlost level.size)
  · rcases Nat.lt_or_eq_of_le hlost with hlt | rfl
    · have hk : (c.levels side).length < (b.levels side).length := Nat.lt_trans hlt hj
      have hkept := List.getElem?_eq_getElem hk
      refine newLevel_strays (by omega) hkept (hprice ▸ hordered.getElem hk hj hlt) ?_
      rw [Book.resizeAt, levels_withLevels, List.getElem?_modify, hkept]
      simp [Nat.ne_of_gt hlt]
    · rw [newLevel_length, if_neg hfull]
      refine .follow (fun lost hlost => .inr ?_) rfl (h.withLevels (by simp; omega) ?_)
      · obtain ⟨-, rfl⟩ := getElem_of_lacks? hlost
        exact hprice.symm
      · refine prefix_concat_iff.2 ⟨hshown, ?_⟩
        simp [List.getElem?_eq_getElem hj, hprice]

theorem Heads.newLevel_shown (hj : side.Locates (b.levels side) level.price (.missing j))
    (hb : b.newLevel side j level = .ok b') (hshown : j ≤ (c.levels side).length) :
    Decides (c.Reaches b side level.price) side (c.newLevel side j level) b' := by
  refine (h.newLevel_decides hb).congr ⟨fun _ lost hlost => .inl ?_, fun _ => .inl hshown⟩
  obtain ⟨hk, rfl⟩ := getElem_of_lacks? hlost
  exact hj.worse hk hshown

theorem Heads.newLevel_lost (hj : side.Locates (b.levels side) level.price (.missing j))
    (hb : b.newLevel side j level = .ok b') (hlost : (c.levels side).length < j) :
    Decides (c.Reaches b side level.price) side (c.newLevel side (c.levels side).length level)
      b' := by
  have hdepth := h.depth
  have hk : (c.levels side).length < (b.levels side).length := Nat.lt_of_lt_of_le hlost hj.1
  by_cases hfull : c.depth ≤ (c.levels side).length
  · rw [newLevel_length, if_pos hfull]
    refine .follow (reaches_of_full hfull _) rfl ?_
    obtain ⟨c', hc', hheads⟩ := (h.newLevel_decides hb).follows (.inr (by omega))
    rw [newLevel, if_pos (by omega)] at hc'
    rwa [Except.ok.inj hc']
  · refine newLevel_strays (by omega) (List.getElem?_eq_getElem hk) (hj.better hk hlost) ?_
    rw [getElem?_newLevel hb hlost (by omega), List.getElem?_eq_getElem hk]

theorem Heads.setLevel_decides (hordered : side.Ordered (b.levels side))
    (hb : b.setLevel side level = .ok b') :
    Decides (c.Reaches b side level.price) side (c.setLevel side level) b' := by
  have hlocates := Side.locates_locate hordered level.price
  unfold setLevel at hb ⊢
  rw [Side.locate_of_prefix hordered (h.levels side)]
  cases hlocate : side.locate (b.levels side) level.price with
  | found j =>
    rw [hlocate] at hlocates
    simp only [hlocate, Except.ok.injEq] at hb
    subst hb
    by_cases hshown : j < (c.levels side).length
    · rw [Location.among, if_pos hshown]
      exact h.resizeAt_shown hordered hlocates.1 hlocates.2 hshown
    · rw [Location.among, if_neg hshown]
      exact h.resizeAt_lost hordered hlocates.1 hlocates.2 (Nat.le_of_not_lt hshown)
  | missing j =>
    rw [hlocate] at hlocates
    simp only [hlocate] at hb
    rw [Location.among]
    by_cases hshown : j ≤ (c.levels side).length
    · rw [Nat.min_eq_left hshown]
      exact h.newLevel_shown hlocates hb hshown
    · have hlost := Nat.lt_of_not_le hshown
      rw [Nat.min_eq_right (Nat.le_of_lt hlost)]
      exact h.newLevel_lost hlocates hb hlost

end Prices

/-- The price stands in front of the levels that the book lacks. -/
def Precedes (c b : Book) (side : Side) (price : Int64) : Prop :=
  ∀ lost ∈ c.lacks? b side, side.isBetter price lost.price = true

section Deletions

variable {price : Int64} (h : c.Heads b)

/-- Past the levels shown a deletion fails, unless there is no room for more of them. -/
theorem deletePrice_lost (hk : (c.levels side).length < (b.levels side).length)
    (hworse : side.isBetter price (b.levels side)[(c.levels side).length].price = false)
    (hheads : c.Heads b') :
    Decides (c.Precedes b side price) side
      (if c.depth ≤ (c.levels side).length then .ok c else .error (.priceNotFound side price))
      b' := by
  split
  · next hfull =>
    refine .follow (fun lost hlost => ?_) rfl hheads
    rw [lacks?_of_full hfull] at hlost
    cases hlost
  · next hroom =>
    refine .fail (fun hspares => ?_) rfl
    have hbetter := hspares _ (mem_lacks?_iff.2 ⟨by omega, List.getElem?_eq_getElem hk⟩)
    rw [hworse] at hbetter
    cases hbetter

include h

theorem Heads.eraseAt_shown {j : Nat} (hordered : side.Ordered (b.levels side))
    (hj : j < (b.levels side).length) (hprice : (b.levels side)[j].price = price)
    (hshown : j < (c.levels side).length) :
    Decides (c.Precedes b side price) side
      (.ok (c.withLevels side ((c.levels side).eraseIdx j)))
      (b.withLevels side ((b.levels side).eraseIdx j)) := by
  refine .follow (fun lost hlost => ?_) rfl (h.eraseAt side j)
  obtain ⟨hk, rfl⟩ := getElem_of_lacks? hlost
  rw [← hprice]
  exact hordered.getElem hj hk hshown

theorem Heads.deletePrice_decides (hordered : side.Ordered (b.levels side))
    (hb : b.deletePrice side price = .ok b') :
    Decides (c.Precedes b side price) side (c.deletePrice side price) b' := by
  have hlocates := Side.locates_locate hordered price
  have hself := Side.isBetter_irrefl side price
  unfold deletePrice at hb ⊢
  rw [Side.locate_of_prefix hordered (h.levels side)]
  cases hlocate : side.locate (b.levels side) price with
  | found j =>
    rw [hlocate] at hlocates
    obtain ⟨hj, hprice⟩ := hlocates
    simp only [hlocate, Except.ok.injEq] at hb
    subst hb
    by_cases hshown : j < (c.levels side).length
    · rw [Location.among, if_pos hshown]
      exact h.eraseAt_shown hordered hj hprice hshown
    · rw [Location.among, if_neg hshown]
      have hk : (c.levels side).length < (b.levels side).length := by omega
      refine deletePrice_lost hk ?_ (h.eraseAt_behind (by omega))
      -- The level deleted is the first one lacking, or one behind it.
      refine Bool.eq_false_iff.2 fun hbetter => ?_
      rcases Nat.lt_or_eq_of_le (Nat.le_of_not_lt hshown) with hlt | rfl
      · rw [Side.isBetter_trans hbetter (hprice ▸ hordered.getElem hk hj hlt)] at hself
        cases hself
      · rw [hprice, hself] at hbetter
        cases hbetter
  | missing j =>
    have hdepth := h.depth
    rw [hlocate] at hlocates
    simp only [hlocate] at hb
    simp only [Location.among]
    split at hb
    · next hpast =>
      obtain rfl := Except.ok.inj hb
      by_cases hfull : c.depth ≤ min j (c.levels side).length
      · rw [if_pos hfull]
        exact .follow (fun lost hlost => absurd (mem_lacks?_iff.1 hlost).1 (by omega)) rfl h
      · have hlt : (c.levels side).length < j := by
          have := h.bounded side
          omega
        have hk : (c.levels side).length < (b.levels side).length :=
          Nat.lt_of_lt_of_le hlt hlocates.1
        rw [Nat.min_eq_right (Nat.le_of_lt hlt)]
        refine deletePrice_lost hk (Bool.eq_false_iff.2 fun hbetter => ?_) h
        rw [Side.isBetter_trans hbetter (hlocates.better hk hlt)] at hself
        cases hself
    · cases hb

end Deletions

end Book

end MarketFeed
