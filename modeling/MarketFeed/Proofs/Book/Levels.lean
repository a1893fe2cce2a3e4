import MarketFeed.Book.Basic

/-!
# The order of levels

The levels of a side stand best first, and no two have the same price. On such a list the binary
search finds a price or the one place where it belongs, so an entry addressed by its price keeps the
order and the depth.
-/

namespace MarketFeed

namespace Side

variable {side : Side} {levels : List PriceLevel} {price : Int64}

theorem isBetter_irrefl (side : Side) (a : Int64) : side.isBetter a a = false := by
  cases side <;> simp [isBetter]

theorem isBetter_trans {a b c : Int64} (hab : side.isBetter a b = true)
    (hbc : side.isBetter b c = true) : side.isBetter a c = true := by
  cases side <;> simp only [isBetter, decide_eq_true_eq] at *
  · exact Int64.lt_trans hbc hab
  · exact Int64.lt_trans hab hbc

theorem isBetter_of_ne {a b : Int64} (hne : a ≠ b) (h : side.isBetter a b = false) :
    side.isBetter b a = true := by
  cases side <;> simp only [isBetter, decide_eq_false_iff_not, decide_eq_true_eq] at *
  · exact (Int64.lt_or_lt_of_ne hne).resolve_right h
  · exact (Int64.lt_or_lt_of_ne hne).resolve_left h

/-- The best level comes first, and no price twice. -/
def Ordered (side : Side) (levels : List PriceLevel) : Prop :=
  levels.Pairwise fun a b => side.isBetter a.price b.price = true

theorem Ordered.nodup (h : side.Ordered levels) : (levels.map PriceLevel.price).Nodup := by
  refine List.pairwise_map.2 (h.imp fun {a b} hbetter heq => ?_)
  rw [heq, isBetter_irrefl] at hbetter
  cases hbetter

/-- Levels in order are told by what they are. -/
theorem Ordered.eq_of_perm {levels' : List PriceLevel} (h : side.Ordered levels)
    (h' : side.Ordered levels') (hperm : levels.Perm levels') : levels = levels' := by
  refine List.Perm.eq_of_pairwise (fun a b _ _ hab hba => ?_) h h' hperm
  have := isBetter_trans hab hba
  rw [isBetter_irrefl] at this
  cases this

theorem Ordered.getElem (h : side.Ordered levels) {i j : Nat} (hi : i < levels.length)
    (hj : j < levels.length) (hij : i < j) :
    side.isBetter levels[i].price levels[j].price = true :=
  List.pairwise_iff_getElem.1 h i j hi hj hij

/-! ## Binary search -/

/-- The price belongs in front of the level at a position. -/
def IsPast (side : Side) (levels : List PriceLevel) (price : Int64) (i : Nat) : Prop :=
  ∃ h : i < levels.length, side.isBetter price levels[i].price = true

theorem any_isBetter_iff (side : Side) (levels : List PriceLevel) (price : Int64) (i : Nat) :
    (levels[i]?).any (fun level => side.isBetter price level.price) = true ↔
      side.IsPast levels price i := by
  unfold IsPast
  by_cases h : i < levels.length
  · simp [h]
  · simp [h]

theorem IsPast.mono (hlevels : side.Ordered levels) {i j : Nat} (h : side.IsPast levels price i)
    (hij : i ≤ j) (hj : j < levels.length) : side.IsPast levels price j := by
  obtain ⟨hi, hbetter⟩ := h
  rcases Nat.lt_or_eq_of_le hij with hlt | rfl
  · exact ⟨hj, isBetter_trans hbetter (hlevels.getElem hi hj hlt)⟩
  · exact ⟨hj, hbetter⟩

/-- What the window of a search says of the levels outside it. -/
structure Window (side : Side) (levels : List PriceLevel) (price : Int64) (start size : Nat) :
    Prop where
  fits : start + size ≤ levels.length
  front : start = 0 ∨ ¬ side.IsPast levels price start
  behind : ∀ i, start + size ≤ i → i < levels.length → side.IsPast levels price i

/-- Halving ends with a window of one level. -/
theorem Window.narrow (hlevels : side.Ordered levels) {start size : Nat} (hsize : 0 < size)
    (h : side.Window levels price start size) :
    side.Window levels price (side.narrow levels price start size) 1 := by
  induction size using Nat.strongRecOn generalizing start with
  | ind size ih =>
    rw [Side.narrow]
    split
    · next hone =>
      obtain rfl : size = 1 := by omega
      exact h
    · next hmany =>
      dsimp only
      have hfits := h.fits
      refine ih _ (by omega) (by omega) ?_
      split
      · next hpast =>
        rw [any_isBetter_iff] at hpast
        refine ⟨by omega, h.front, fun i hi hlt => hpast.mono hlevels (by omega) hlt⟩
      · next hpast =>
        rw [any_isBetter_iff] at hpast
        refine ⟨by omega, .inr hpast, fun i hi hlt => h.behind i (by omega) hlt⟩

/-- Where a search ends: at the price, or between the better levels and the worse. -/
def Locates (side : Side) (levels : List PriceLevel) (price : Int64) : Location → Prop
  | .found i => ∃ h : i < levels.length, levels[i].price = price
  | .missing i => i ≤ levels.length ∧
      (∀ level ∈ levels.take i, side.isBetter level.price price = true) ∧
      ∀ level ∈ levels.drop i, side.isBetter price level.price = true

theorem locates_locate (hlevels : side.Ordered levels) (price : Int64) :
    side.Locates levels price (side.locate levels price) := by
  by_cases hnil : levels = []
  · subst hnil
    simp [locate, narrow, Locates]
  · have hlength := List.length_pos_iff.2 hnil
    have hwhole : side.Window levels price 0 levels.length :=
      ⟨by omega, .inl rfl, fun i hi hlt => by omega⟩
    have hwindow := hwhole.narrow hlevels hlength
    unfold locate
    generalize side.narrow levels price 0 levels.length = i at hwindow ⊢
    have hi : i < levels.length := hwindow.fits
    have hbehind : ∀ level ∈ levels.drop (i + 1), side.isBetter price level.price = true := by
      intro level hlevel
      obtain ⟨j, hj, rfl⟩ := List.mem_drop_iff_getElem.1 hlevel
      exact (hwindow.behind (i + 1 + j) (by omega) (by omega)).2
    dsimp only
    rw [List.getElem?_eq_getElem hi]
    dsimp only
    split
    · next hprice => exact ⟨hi, hprice⟩
    · next hprice =>
      split
      · next hbetter =>
        refine ⟨hi, fun level hlevel => ?_, hbehind⟩
        obtain ⟨j, hj, rfl⟩ := List.mem_take_iff_getElem.1 hlevel
        rcases Nat.lt_or_eq_of_le (show j ≤ i by omega) with hlt | rfl
        · exact isBetter_trans (hlevels.getElem (Nat.lt_trans hlt hi) hi hlt) hbetter
        · exact hbetter
      · next hbetter =>
        have hpast := isBetter_of_ne hprice (Bool.eq_false_iff.2 hbetter)
        rcases hwindow.front with rfl | hfront
        · refine ⟨Nat.zero_le _, by simp, fun level hlevel => ?_⟩
          obtain ⟨j, hj, rfl⟩ := List.mem_drop_iff_getElem.1 hlevel
          exact (IsPast.mono hlevels ⟨hi, hpast⟩ (Nat.zero_le (0 + j)) (by omega)).2
        · exact absurd ⟨hi, hpast⟩ hfront

/-! ## Putting a level in its place -/

theorem insertIdx_eq {i : Nat} (h : i ≤ levels.length) (level : PriceLevel) :
    levels.insertIdx i level = levels.take i ++ level :: levels.drop i := by
  induction i generalizing levels with
  | zero => simp
  | succ i ih =>
    cases levels with
    | nil => simp at h
    | cons first levels =>
      rw [List.insertIdx_succ_cons, ih (Nat.le_of_succ_le_succ h)]
      rfl

theorem Ordered.insert (hlevels : side.Ordered levels) {i : Nat} {level : PriceLevel}
    (h : side.Locates levels level.price (.missing i)) :
    side.Ordered (levels.insertIdx i level) := by
  obtain ⟨hi, hfront, hbehind⟩ := h
  unfold Ordered at hlevels
  rw [← List.take_append_drop i levels, List.pairwise_append] at hlevels
  obtain ⟨htake, hdrop, hacross⟩ := hlevels
  rw [insertIdx_eq hi]
  refine List.pairwise_append.2 ⟨htake, List.pairwise_cons.2 ⟨hbehind, hdrop⟩, ?_⟩
  intro a ha b hb
  rcases List.mem_cons.1 hb with rfl | hb
  · exact hfront a ha
  · exact hacross a ha b hb

theorem Ordered.resize (hlevels : side.Ordered levels) (i : Nat) (size : Int64) :
    side.Ordered (levels.modify i fun level => { level with size }) := by
  have hprices : (levels.modify i fun level => { level with size }).map PriceLevel.price =
      levels.map PriceLevel.price := by
    refine List.ext_getElem? fun j => ?_
    simp only [List.getElem?_map, List.getElem?_modify]
    cases levels[j]? with
    | none => rfl
    | some level =>
      by_cases hij : i = j
      · simp [hij]
      · simp [hij]
  unfold Ordered at *
  have hpairs : ∀ ls : List PriceLevel,
      ls.Pairwise (fun a b => side.isBetter a.price b.price = true) ↔
        (ls.map PriceLevel.price).Pairwise (fun a b => side.isBetter a b = true) :=
    fun ls => by rw [List.pairwise_map]
  rw [hpairs] at hlevels ⊢
  rwa [hprices]

end Side

/-! ## Books in order -/

namespace Book

variable {b b' : Book} {side : Side} {levels : List PriceLevel}

@[simp] theorem levels_withLevels (b : Book) (side : Side) (levels : List PriceLevel) :
    (b.withLevels side levels).levels side = levels := by
  cases side <;> rfl

theorem levels_withLevels_of_ne (b : Book) {side other : Side} (h : other ≠ side)
    (levels : List PriceLevel) : (b.withLevels side levels).levels other = b.levels other := by
  cases side <;> cases other <;> first | rfl | exact absurd rfl h

@[simp] theorem depth_withLevels (b : Book) (side : Side) (levels : List PriceLevel) :
    (b.withLevels side levels).depth = b.depth := by
  cases side <;> rfl

/-- Both sides are in order, and no deeper than the book. -/
structure Tidy (b : Book) : Prop where
  ordered : ∀ side : Side, side.Ordered (b.levels side)
  bounded : ∀ side, (b.levels side).length ≤ b.depth

theorem Tidy.withLevels (h : b.Tidy) (hordered : side.Ordered levels)
    (hbounded : levels.length ≤ b.depth) : (b.withLevels side levels).Tidy := by
  refine ⟨fun other => ?_, fun other => ?_⟩
  · by_cases hother : other = side
    · rw [hother, levels_withLevels]
      exact hordered
    · rw [levels_withLevels_of_ne b hother]
      exact h.ordered other
  · rw [depth_withLevels]
    by_cases hother : other = side
    · rw [hother, levels_withLevels]
      exact hbounded
    · rw [levels_withLevels_of_ne b hother]
      exact h.bounded other

theorem Tidy.locates (h : b.Tidy) (side : Side) (price : Int64) :
    side.Locates (b.levels side) price (side.locate (b.levels side) price) :=
  Side.locates_locate (h.ordered side) price

theorem Tidy.resized (h : b.Tidy) (side : Side) (i : Nat) (size : Int64) :
    (b.resizeAt side i size).Tidy := by
  apply h.withLevels ((h.ordered side).resize i size)
  rw [List.length_modify]
  exact h.bounded side

theorem Tidy.erased (h : b.Tidy) (side : Side) (i : Nat) :
    (b.withLevels side ((b.levels side).eraseIdx i)).Tidy := by
  have hsub := List.eraseIdx_sublist (b.levels side) i
  apply h.withLevels ((h.ordered side).sublist hsub)
  exact Nat.le_trans hsub.length_le (h.bounded side)

theorem Tidy.setLevel (h : b.Tidy) {level : PriceLevel}
    (hset : b.setLevel side level = .ok b') : b'.Tidy := by
  have hlocates := h.locates side level.price
  unfold Book.setLevel at hset
  cases hlocate : side.locate (b.levels side) level.price with
  | found i =>
    simp only [hlocate] at hset
    rw [← Except.ok.inj hset]
    exact h.resized side i level.size
  | missing i =>
    rw [hlocate] at hlocates
    simp only [hlocate, newLevel] at hset
    split at hset
    · rw [← Except.ok.inj hset]
      exact h
    · split at hset
      · cases hset
      · rw [← Except.ok.inj hset]
        refine h.withLevels (((h.ordered side).insert hlocates).sublist (List.take_sublist _ _)) ?_
        rw [List.length_take]
        exact Nat.min_le_left _ _

theorem Tidy.deletePrice (h : b.Tidy) {price : Int64}
    (hdelete : b.deletePrice side price = .ok b') : b'.Tidy := by
  unfold Book.deletePrice at hdelete
  cases hlocate : side.locate (b.levels side) price with
  | found i =>
    simp only [hlocate] at hdelete
    rw [← Except.ok.inj hdelete]
    exact h.erased side i
  | missing i =>
    simp only [hlocate] at hdelete
    split at hdelete
    · rw [← Except.ok.inj hdelete]
      exact h
    · cases hdelete

/-- A level at a new price is put among the others if there is room for it. -/
theorem Tidy.setLevel_new (h : b.Tidy) {level : PriceLevel}
    (hnew : level.price ∉ (b.levels side).map PriceLevel.price)
    (hroom : (b.levels side).length < b.depth) :
    ∃ levels, b.setLevel side level = .ok (b.withLevels side levels) ∧
      levels.Perm (level :: b.levels side) := by
  have hlocates := h.locates side level.price
  unfold Book.setLevel
  cases hlocate : side.locate (b.levels side) level.price with
  | found i =>
    rw [hlocate] at hlocates
    obtain ⟨hi, hprice⟩ := hlocates
    exact absurd (hprice ▸ List.mem_map_of_mem (List.getElem_mem hi)) hnew
  | missing i =>
    rw [hlocate] at hlocates
    have hi := hlocates.1
    have hperm := List.perm_insertIdx level (b.levels side) hi
    refine ⟨_, ?_, hperm⟩
    simp only [newLevel]
    rw [if_neg (by omega), if_neg (by omega), List.take_of_length_le]
    rw [hperm.length_eq]
    exact hroom

end Book

end MarketFeed
