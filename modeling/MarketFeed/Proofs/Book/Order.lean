import MarketFeed.Proofs.Book.Depth
import Mathlib.Data.List.Induction

/-!
# When levels stay best first

A level that is put at an index goes just there, wherever its price belongs. So the sides of a book
stay in order as long as every level that is put at an index has its price between its neighbours,
and no longer: `ordered_iff_fits`. Nothing else can bring them out of order.
-/

namespace MarketFeed

namespace Side

variable {side : Side} {levels : List PriceLevel} {depth i : Nat} {price : Int64}

/--
The price is worse than that of the level in front of a position, and better than that of the level
behind it unless that one falls out of the depth.
-/
def Fits (side : Side) (levels : List PriceLevel) (depth i : Nat) (price : Int64) : Prop :=
  (∀ front ∈ levels[i - 1]?, 0 < i → side.isBetter front.price price = true) ∧
    ∀ behind ∈ levels[i]?, i + 1 < depth → side.isBetter price behind.price = true

/-- In levels in order, what holds of the neighbours holds of all. -/
theorem Ordered.fits_iff (hlevels : side.Ordered levels) (hi : i ≤ levels.length) :
    side.Fits levels depth i price ↔
      (∀ level ∈ levels.take i, side.isBetter level.price price = true) ∧
        ∀ level ∈ (levels.drop i).take (depth - 1 - i), side.isBetter price level.price = true := by
  constructor
  · rintro ⟨hfront, hbehind⟩
    constructor
    · intro level hlevel
      obtain ⟨j, hj, rfl⟩ := List.mem_take_iff_getElem.1 hlevel
      have hlast : i - 1 < levels.length := by omega
      have hnear := hfront levels[i - 1] (by simp [hlast]) (by omega)
      rcases Nat.lt_or_eq_of_le (show j ≤ i - 1 by omega) with hlt | rfl
      · exact isBetter_trans (hlevels.getElem (by omega) hlast hlt) hnear
      · exact hnear
    · intro level hlevel
      obtain ⟨j, hj, rfl⟩ := List.mem_take_iff_getElem.1 hlevel
      simp only [List.length_drop, List.getElem_drop] at hj ⊢
      have hfirst : i < levels.length := by omega
      have hnear := hbehind levels[i] (by simp [hfirst]) (by omega)
      rcases Nat.eq_zero_or_pos j with rfl | hpos
      · exact hnear
      · exact isBetter_trans hnear (hlevels.getElem hfirst (by omega) (by omega))
  · rintro ⟨hfront, hbehind⟩
    constructor
    · intro front hmem hpos
      obtain ⟨hlast, rfl⟩ := List.getElem?_eq_some_iff.1 hmem
      apply hfront
      exact List.mem_take_iff_getElem.2 ⟨i - 1, by omega, rfl⟩
    · intro behind hmem hroom
      obtain ⟨hfirst, rfl⟩ := List.getElem?_eq_some_iff.1 hmem
      apply hbehind
      exact List.mem_take_iff_getElem.2 ⟨0, by simp; omega, by simp⟩

/-- A level that is put into a side leaves it in order if and only if it fits in. -/
theorem Ordered.insertIdx_take_iff (hlevels : side.Ordered levels) (hi : i ≤ levels.length)
    (hdepth : i < depth) (level : PriceLevel) :
    side.Ordered ((levels.insertIdx i level).take depth) ↔
      side.Fits levels depth i level.price := by
  have hsplit : (levels.insertIdx i level).take depth =
      levels.take i ++ level :: (levels.drop i).take (depth - 1 - i) := by
    have hfront : (levels.take i).length = i := List.length_take_of_le hi
    have hrest : depth - i = depth - 1 - i + 1 := by omega
    rw [insertIdx_eq hi, List.take_append, hfront, List.take_take, Nat.min_eq_right (by omega),
      hrest, List.take_succ_cons]
  have hfront : side.Ordered (levels.take i) := hlevels.sublist (List.take_sublist _ _)
  have hbehind : side.Ordered ((levels.drop i).take (depth - 1 - i)) :=
    hlevels.sublist ((List.take_sublist _ _).trans (List.drop_sublist _ _))
  have hacross : ∀ a ∈ levels.take i, ∀ b ∈ (levels.drop i).take (depth - 1 - i),
      side.isBetter a.price b.price = true := by
    unfold Ordered at hlevels
    rw [← List.take_append_drop i levels, List.pairwise_append] at hlevels
    intro a ha b hb
    exact hlevels.2.2 a ha b (List.mem_of_mem_take hb)
  rw [hsplit, hlevels.fits_iff hi]
  unfold Ordered at hfront hbehind ⊢
  rw [List.pairwise_append, List.pairwise_cons]
  constructor
  · rintro ⟨-, ⟨hafter, -⟩, hbefore⟩
    exact ⟨fun a ha => hbefore a ha level (List.mem_cons_self ..), hafter⟩
  · rintro ⟨hbefore, hafter⟩
    refine ⟨hfront, ⟨hafter, hbehind⟩, ?_⟩
    intro a ha b hb
    rcases List.mem_cons.1 hb with rfl | hb
    · exact hbefore a ha
    · exact hacross a ha b hb

end Side

namespace Book

variable {b b' : Book} {side : Side} {e : BookEntry} {i : Nat}

/-! ## Levels at an index -/

theorem newLevel_eq_insert {level : PriceLevel} (hdepth : i < b.depth)
    (hi : i ≤ (b.levels side).length) :
    b.newLevel side i level =
      .ok (b.withLevels side (((b.levels side).insertIdx i level).take b.depth)) := by
  simp only [newLevel]
  rw [if_neg (by omega), if_neg (by omega)]

theorem Tidy.newLevel_of_fits (h : b.Tidy) {level : PriceLevel}
    (hfits : i < b.depth → i ≤ (b.levels side).length →
      side.Fits (b.levels side) b.depth i level.price)
    (hnew : b.newLevel side i level = .ok b') : b'.Tidy := by
  by_cases hdepth : i < b.depth
  · have hi : i ≤ (b.levels side).length := by
      rcases newLevel_eq_ok hnew with hbelow | hnear
      · omega
      · exact hnear
    rw [newLevel_eq_insert hdepth hi] at hnew
    rw [← Except.ok.inj hnew]
    apply h.withLevels
    · exact ((h.ordered side).insertIdx_take_iff hi hdepth level).2 (hfits hdepth hi)
    · rw [List.length_take]
      exact Nat.min_le_left _ _
  · simp only [Book.newLevel, if_pos (Nat.le_of_not_lt hdepth)] at hnew
    rw [← Except.ok.inj hnew]
    exact h

theorem Tidy.editAt (h : b.Tidy) {price : Option Int64} {edit : Book → Book}
    (hedit : (edit b).Tidy) (hb : b.editAt side i price edit = .ok b') : b'.Tidy := by
  rcases editAt_eq_ok hb with ⟨-, rfl⟩ | ⟨-, rfl, -⟩
  · exact h
  · exact hedit

/-! ## Entries -/

/-- A level that the entry puts at an index fits in there. -/
def Fits (b : Book) (e : BookEntry) : Prop :=
  e.action = .new → ∀ side ∈ e.kind.side?, ∀ i ∈ e.level, ∀ ticks,
    b.entryTicks e = .ok (some ticks) → i < b.depth → i ≤ (b.levels side).length →
      side.Fits (b.levels side) b.depth i ticks

theorem applyTo_new (haction : e.action = .new) (hlevel : e.level = some i) {ticks : Int64}
    (hticks : b.entryTicks e = .ok (some ticks)) :
    b.applyTo side e = b.newLevel side i ⟨ticks, e.size⟩ := by
  simp only [applyTo, hticks, haction, hlevel, entryLevel, bind, Except.bind]

theorem Tidy.applyTo_of_fits (h : b.Tidy) (hfits : b.Fits e) (hside : e.kind.side? = some side)
    (happly : b.applyTo side e = .ok b') : b'.Tidy := by
  cases hlevel : e.level with
  | none => exact h.applyTo hlevel happly
  | some i =>
    unfold Book.applyTo at happly
    cases hticks : b.entryTicks e with
    | error error => simp [hticks, bind, Except.bind] at happly
    | ok price =>
      rw [hticks, hlevel] at happly
      cases haction : e.action with
      | new =>
        rw [haction] at happly
        obtain ⟨ticks, rfl, hnew⟩ := entryLevel_bind_eq_ok (f := b.newLevel side i) happly
        exact h.newLevel_of_fits (hfits haction side hside i hlevel ticks hticks) hnew
      | change =>
        rw [haction] at happly
        obtain ⟨ticks, rfl, hchange⟩ := entryLevel_bind_eq_ok (f := b.changeLevel side i) happly
        rw [changeLevel_eq] at hchange
        exact h.editAt (h.resized side i _) hchange
      | delete =>
        rw [haction] at happly
        have hdelete : b.deleteLevel side i price = .ok b' := happly
        rw [deleteLevel_eq] at hdelete
        exact h.editAt (h.erased side i) hdelete

/-- An entry that fits in leaves the book in order, whether it is taken or not. -/
theorem Tidy.apply_of_fits (h : b.Tidy) (hfits : b.Fits e) : (b.apply e).2.Tidy :=
  h.apply_of_applyTo fun _ _ hside happly => h.applyTo_of_fits hfits hside happly

/-- An entry that leaves the book in order fits in. -/
theorem Tidy.fits_of_apply (h : b.Tidy)
    (hordered : ∀ side : Side, side.Ordered ((b.apply e).2.levels side)) : b.Fits e := by
  intro haction side hside i hlevel ticks hticks hdepth hi
  have hlevels : (b.apply e).2.levels side =
      ((b.levels side).insertIdx i ⟨ticks, e.size⟩).take b.depth := by
    rw [apply_of_side hside, applyTo_new haction hlevel hticks, newLevel_eq_insert hdepth hi]
    cases side <;> rfl
  have := hordered side
  rw [hlevels] at this
  exact ((h.ordered side).insertIdx_take_iff hi hdepth _).1 this

/-! ## Runs -/

/--
The levels of a new book are best first after every entry, whatever entries fail, if and only if
every level that is put at an index fits in there. So they are if no entry is a new level at an
index.
-/
theorem ordered_iff_fits (symbol : String) (securityId : UInt64) (tick : Decimal) (depth : Nat)
    (session : Option String) (entries : List BookEntry) :
    let b := create symbol securityId tick depth session
    (∀ done, done <+: entries → ∀ side : Side, side.Ordered ((b.applyAll done).levels side)) ↔
      ∀ done e, done ++ [e] <+: entries → (b.applyAll done).Fits e := by
  intro b
  have hb : b.Tidy := tidy_of_empty fun side => by cases side <;> rfl
  constructor
  · intro hordered
    have htidy : ∀ done, done <+: entries → (b.applyAll done).Tidy := by
      intro done
      induction done using List.reverseRecOn with
      | nil => exact fun _ => hb
      | append_singleton done e ih =>
        intro hdone
        have hbefore := ih ((List.prefix_append done [e]).trans hdone)
        have hafter := hordered _ hdone
        rw [applyAll_concat] at hafter ⊢
        exact hbefore.apply_of_fits (hbefore.fits_of_apply hafter)
    intro done e hdone
    have hafter := hordered _ hdone
    rw [applyAll_concat] at hafter
    exact (htidy done ((List.prefix_append done [e]).trans hdone)).fits_of_apply hafter
  · intro hfits done hdone
    have htidy : (b.applyAll done).Tidy := by
      induction done using List.reverseRecOn with
      | nil => exact hb
      | append_singleton done e ih =>
        rw [applyAll_concat]
        exact (ih ((List.prefix_append done [e]).trans hdone)).apply_of_fits (hfits done e hdone)
    exact htidy.ordered

/-! ## A book out of order -/

instance (side : Side) (levels : List PriceLevel) : Decidable (side.Ordered levels) :=
  inferInstanceAs (Decidable (levels.Pairwise fun a b => side.isBetter a.price b.price = true))

/-- A better bid is put behind a worse one. -/
def inverted : List BookEntry := [bid .new 100 (some 0), bid .new 105 (some 1)]

/--
Both bids are taken. The worse one is then shown as the best, and cannot be found any more by its
price.
-/
theorem disordered_by_index :
    (ofDepth 3).Accepts (bid .new 100 (some 0)) ∧
      ((ofDepth 3).applyAll [bid .new 100 (some 0)]).Accepts (bid .new 105 (some 1)) ∧
      ¬ Side.bid.Ordered (((ofDepth 3).applyAll inverted).levels .bid) ∧
      ((ofDepth 3).applyAll inverted).levels .bid = [⟨100, 1⟩, ⟨105, 1⟩] ∧
      ((ofDepth 3).applyAll inverted).best? .bid = some (⟨100, 0⟩, 1) ∧
      (((ofDepth 3).applyAll inverted).apply (bid .delete 100 none)).1 =
        .error (.priceNotFound .bid 100) := by
  refine ⟨?_, ?_, ?_, ?_, ?_, ?_⟩
  all_goals decide +kernel

end Book

end MarketFeed
