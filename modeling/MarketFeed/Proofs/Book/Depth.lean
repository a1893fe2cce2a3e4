import MarketFeed.Proofs.Book.Heads

/-!
# Shallow books and deep ones

A book goes on showing the head of what a deeper book holds until an entry is about a level that it
has dropped and that a deletion has brought back within its depth: `follows_iff_spares`. That is as
far as it goes, since nothing is known of such a level any more: deleting it fails, and a level put
behind it takes its place.
-/

namespace MarketFeed

namespace Book

variable {b b' c : Book} {side : Side} {e : BookEntry} {i : Nat}

/-! ## Entries -/

theorem Heads.entryTicks_eq (h : c.Heads b) (e : BookEntry) : c.entryTicks e = b.entryTicks e := by
  simp only [entryTicks, priceInTicks, h.tick]

theorem sparesSide_price_iff (hlevel : e.level = none) {price : Int64}
    (hticks : b.entryTicks e = .ok (some price)) :
    c.SparesSide b side e ↔ ∀ lost ∈ c.lacks? b side, side.isBetter price lost.price = true ∨
      e.action ≠ .delete ∧ price = lost.price := by
  unfold SparesSide
  simp only [hlevel, hticks, Except.ok.injEq, Option.some.injEq, forall_eq']

theorem newLevel_eq_ok {level : PriceLevel} (h : b.newLevel side i level = .ok b') :
    b.depth ≤ i ∨ i ≤ (b.levels side).length := by
  simp only [newLevel] at h
  split at h
  · next hbelow => exact .inl hbelow
  · split at h
    · cases h
    · next hnear => exact .inr (Nat.le_of_not_lt hnear)

section Entries

variable (h : c.Heads b)
include h

/-- A change or a deletion at an index goes along as far as it spares the levels lacking. -/
theorem Heads.editAt_applied {price : Option Int64} (edit : Book → Book)
    (hlevel : e.level = some i) (haction : e.action ≠ .new) (hboth : (edit c).Heads (edit b))
    (hbehind : (c.levels side).length ≤ i → c.Heads (edit b))
    (hb : b.editAt side i price edit = .ok b') :
    Decides (c.SparesSide b side e) side (c.editAt side i price edit) b' := by
  have hdepth := h.depth
  refine (h.editAt_decides hboth hbehind hb).congr ?_
  rw [sparesSide_index_iff hlevel fun hpast hroom _ => ?_]
  · simp [haction]
  · rcases editAt_eq_ok hb with ⟨hbelow, -⟩ | ⟨-, -, level, hat⟩
    · omega
    · exact Nat.lt_of_le_of_lt hpast (lt_of_levelAt hat)

theorem Heads.newLevel_applied (hlevel : e.level = some i) (haction : e.action = .new)
    {price : Option Int64} (hb : entryLevel e price >>= b.newLevel side i = .ok b') :
    Decides (c.SparesSide b side e) side (entryLevel e price >>= c.newLevel side i) b' := by
  have hdepth := h.depth
  obtain ⟨ticks, rfl, hb⟩ := entryLevel_bind_eq_ok hb
  refine (h.newLevel_decides hb).congr ?_
  rw [sparesSide_index_iff hlevel fun hpast hroom hne => ?_]
  · simp only [haction, true_and]
    omega
  · have := hne haction
    rcases newLevel_eq_ok hb with hbelow | hnear
    · omega
    · omega

theorem Heads.setLevel_applied (hplaced : side.Ordered (b.levels side)) (hlevel : e.level = none)
    (haction : e.action ≠ .delete) {price : Option Int64} (hticks : b.entryTicks e = .ok price)
    (hb : entryLevel e price >>= b.setLevel side = .ok b') :
    Decides (c.SparesSide b side e) side (entryLevel e price >>= c.setLevel side) b' := by
  obtain ⟨ticks, rfl, hb⟩ := entryLevel_bind_eq_ok hb
  refine (h.setLevel_decides hplaced hb).congr ?_
  rw [sparesSide_price_iff hlevel hticks]
  simp [Reaches, haction]

theorem Heads.deletePrice_applied (hplaced : side.Ordered (b.levels side)) (hlevel : e.level = none)
    (haction : e.action = .delete) {price : Option Int64} (hticks : b.entryTicks e = .ok price)
    (hb : (entryLevel e price >>= fun level => b.deletePrice side level.price) = .ok b') :
    Decides (c.SparesSide b side e) side
      (entryLevel e price >>= fun level => c.deletePrice side level.price) b' := by
  obtain ⟨ticks, rfl, hb⟩ := entryLevel_bind_eq_ok hb
  refine (h.deletePrice_decides hplaced hb).congr ?_
  rw [sparesSide_price_iff hlevel hticks]
  simp [Precedes, haction]

/-- Of an entry that the deep book takes, the shallow one makes the same unless it must not. -/
theorem Heads.applyTo_decides (hplaced : e.level = none → side.Ordered (b.levels side))
    (hb : b.applyTo side e = .ok b') :
    Decides (c.SparesSide b side e) side (c.applyTo side e) b' := by
  unfold applyTo at hb ⊢
  rw [h.entryTicks_eq]
  cases hticks : b.entryTicks e with
  | error error => simp [hticks, bind, Except.bind] at hb
  | ok price =>
    rw [hticks] at hb
    cases hlevel : e.level with
    | none =>
      have hplaced := hplaced hlevel
      cases haction : e.action with
      | new =>
        rw [hlevel, haction] at hb
        exact h.setLevel_applied hplaced hlevel (by simp [haction]) hticks hb
      | change =>
        rw [hlevel, haction] at hb
        exact h.setLevel_applied hplaced hlevel (by simp [haction]) hticks hb
      | delete =>
        rw [hlevel, haction] at hb
        exact h.deletePrice_applied hplaced hlevel haction hticks hb
    | some i =>
      cases haction : e.action with
      | new =>
        rw [hlevel, haction] at hb
        exact h.newLevel_applied hlevel haction hb
      | change =>
        rw [hlevel, haction] at hb
        obtain ⟨ticks, rfl, hb⟩ := entryLevel_bind_eq_ok hb
        exact h.editAt_applied (·.resizeAt side i e.size) hlevel (by simp [haction])
          (h.resizeAt side i e.size) (fun hpast => h.resizeAt_behind hpast e.size)
          ((changeLevel_eq b side i ⟨ticks, e.size⟩).symm.trans hb)
      | delete =>
        rw [hlevel, haction] at hb
        exact h.editAt_applied (fun b => b.withLevels side ((b.levels side).eraseIdx i)) hlevel
          (by simp [haction]) (h.eraseAt side i) h.eraseAt_behind
          ((deleteLevel_eq b side i price).symm.trans hb)

end Entries

def Accepts (b : Book) (e : BookEntry) : Prop := (b.apply e).1 = .ok ()

/-- A price is searched for among levels in order only. -/
def Placed (b : Book) (e : BookEntry) : Prop :=
  e.level = none → ∀ side ∈ e.kind.side?, side.Ordered (b.levels side)

/-- The book takes the entry, and then shows the first levels of the other one. -/
def Follows (c b : Book) (e : BookEntry) : Prop :=
  c.Accepts e ∧ ∀ side, (c.apply e).2.levels side <+: (b.apply e).2.levels side

theorem Heads.quoted (h : c.Heads b) :
    ({ c with isEmpty := false } : Book).Heads { b with isEmpty := false } := by
  refine ⟨h.tick, h.depth, fun side => ?_, fun side => ?_⟩
  · have := h.bounded side
    cases side <;> exact this
  · have := h.levels side
    cases side <;> exact this

/-- An entry that the deep book takes is followed if and only if it spares the levels lacking. -/
theorem Heads.apply (h : c.Heads b) (hplaced : b.Placed e) (hb : b.Accepts e) :
    (c.Spares b e → c.Follows b e ∧ (c.apply e).2.Heads (b.apply e).2) ∧
      (c.Follows b e → c.Spares b e) := by
  unfold Follows Accepts Spares at *
  unfold Book.apply at *
  cases hside : e.kind.side? with
  | none =>
    have hcleared : ({ c.clear with isEmpty := true } : Book).Heads
        { b.clear with isEmpty := true } :=
      ⟨h.tick, h.depth, fun side => by cases side <;> exact Nat.zero_le _,
        fun side => by cases side <;> exact List.prefix_refl _⟩
    exact ⟨fun _ => ⟨⟨rfl, hcleared.levels⟩, hcleared⟩, fun _ side hnone => by cases hnone⟩
  | some side =>
    have hordered (hlevel : e.level = none) :
        side.Ordered (({ b with isEmpty := false } : Book).levels side) := by
      have := hplaced hlevel side hside
      cases side <;> exact this
    rw [hside] at hb
    dsimp only at hb ⊢
    cases happly : ({ b with isEmpty := false } : Book).applyTo side e with
    | error error =>
      rw [happly] at hb
      cases hb
    | ok b' =>
      have hdecides := h.quoted.applyTo_decides hordered happly
      have hspares : ({ c with isEmpty := false } : Book).SparesSide { b with isEmpty := false }
          side e ↔ c.SparesSide b side e := by
        cases side <;> exact Iff.rfl
      dsimp only
      constructor
      · intro hs
        obtain ⟨c', hc', hheads⟩ := hdecides.follows (hspares.2 (hs side rfl))
        rw [hc']
        exact ⟨⟨rfl, hheads.levels⟩, hheads⟩
      · rintro hfollows _ hmem
        obtain rfl := Option.some.inj hmem
        refine Classical.byContradiction fun hs => ?_
        cases hc' : ({ c with isEmpty := false } : Book).applyTo side e with
        | error error =>
          rw [hc'] at hfollows
          cases hfollows.1
        | ok c' =>
          rw [hc'] at hfollows
          exact hdecides.strays (fun hs' => hs (hspares.1 hs')) c' hc' (hfollows.2 side)

/-! ## Runs of entries -/

/-- What holds of two books and of an entry, each time that both are given one. -/
def Along (P : Book → Book → BookEntry → Prop) (c b : Book) : List BookEntry → Prop
  | [] => True
  | e :: entries => P c b e ∧ Along P (c.apply e).2 (b.apply e).2 entries

variable {entries : List BookEntry}

theorem Heads.along_follows_iff (h : c.Heads b)
    (hb : Along (fun _ b e => b.Accepts e ∧ b.Placed e) c b entries) :
    Along Follows c b entries ↔ Along Spares c b entries := by
  induction entries generalizing c b with
  | nil => exact Iff.rfl
  | cons e entries ih =>
    obtain ⟨⟨haccepts, hplaced⟩, hrest⟩ := hb
    obtain ⟨hfollows, hspares⟩ := h.apply hplaced haccepts
    constructor
    · rintro ⟨hf, hfs⟩
      have hs := hspares hf
      exact ⟨hs, (ih (hfollows hs).2 hrest).1 hfs⟩
    · rintro ⟨hs, hss⟩
      obtain ⟨hf, hheads⟩ := hfollows hs
      exact ⟨hf, (ih hheads hrest).2 hss⟩

/-- Entries that are addressed by price find their levels in order. -/
theorem along_placed (hb : b.Tidy) (hentries : ∀ e ∈ entries, e.level = none) :
    Along (fun _ b e => b.Placed e) c b entries := by
  induction entries generalizing c b with
  | nil => trivial
  | cons e entries ih =>
    rw [List.forall_mem_cons] at hentries
    exact ⟨fun _ side _ => hb.ordered side, ih (hb.apply hentries.1) hentries.2⟩

theorem along_and {P Q : Book → Book → BookEntry → Prop} (hP : Along P c b entries)
    (hQ : Along Q c b entries) : Along (fun c b e => P c b e ∧ Q c b e) c b entries := by
  induction entries generalizing c b with
  | nil => trivial
  | cons e entries ih => exact ⟨⟨hP.1, hQ.1⟩, ih hP.2 hQ.2⟩

/--
A book shows the head of a deeper one after each of the entries that the deeper one takes, if and
only if none of them is about a level that it has dropped and has room for again. The entries may be
addressed by index where that leaves the sides of the deeper book in order for those that are not.
-/
theorem follows_iff_spares {c b : Book} (htick : c.tick = b.tick) (hdepth : c.depth ≤ b.depth)
    (hc : ∀ side, c.levels side = []) (hb : ∀ side, b.levels side = []) {entries : List BookEntry}
    (haccepts : Along (fun _ b e => b.Accepts e) c b entries)
    (hplaced : (∀ e ∈ entries, e.level = none) ∨ Along (fun _ b e => b.Placed e) c b entries) :
    Along Follows c b entries ↔ Along Spares c b entries := by
  have hheads : c.Heads b := by
    refine ⟨htick, hdepth, fun side => ?_, fun side => ?_⟩
    · rw [hc]
      exact Nat.zero_le _
    · rw [hc]
      exact List.nil_prefix
  refine hheads.along_follows_iff (along_and haccepts ?_)
  rcases hplaced with hentries | hplaced
  · exact along_placed (tidy_of_empty hb) hentries
  · exact hplaced

/-! ## Books that stray -/

instance decidableSides {P : Side → Prop} [DecidablePred P] : Decidable (∀ side, P side) :=
  decidable_of_iff (P .bid ∧ P .ask)
    ⟨fun h side => match side with | .bid => h.1 | .ask => h.2, fun h => ⟨h .bid, h .ask⟩⟩

instance decidableAlong {P : Book → Book → BookEntry → Prop} [∀ c b e, Decidable (P c b e)] :
    ∀ (c b : Book) (entries : List BookEntry), Decidable (Along P c b entries)
  | _, _, [] => inferInstanceAs (Decidable True)
  | c, b, e :: entries =>
    have : Decidable (Along P (c.apply e).2 (b.apply e).2 entries) := decidableAlong _ _ entries
    inferInstanceAs (Decidable (P c b e ∧ Along P (c.apply e).2 (b.apply e).2 entries))

instance (b : Book) (e : BookEntry) : Decidable (b.Accepts e) :=
  match h : (b.apply e).1 with
  | .ok () => .isTrue h
  | .error _ => .isFalse fun hok => by cases h.symm.trans hok

instance (c b : Book) (e : BookEntry) : Decidable (c.Follows b e) :=
  inferInstanceAs (Decidable (c.Accepts e ∧
    ∀ side, (c.apply e).2.levels side <+: (b.apply e).2.levels side))

def ofDepth (depth : Nat) : Book := .create "" 0 ⟨1, 0⟩ depth none

/-- An entry that puts one unit at a bid, or removes the bid. -/
def bid (action : UpdateAction) (price : Int64) (level : Option Nat) : BookEntry :=
  ⟨.bid, action, some ⟨price, 0⟩, 1, level⟩

/--
The second of two bids is dropped and brought back by a deletion, and is then stated once more
before anything else is put in front of it.
-/
def restated : List BookEntry :=
  [bid .new 100 none, bid .new 99 none, bid .delete 100 none, bid .change 99 none,
    bid .new 101 none, bid .delete 99 none]

theorem follows_iff_spares_restated :
    Along (fun _ b e => b.Accepts e) (ofDepth 1) (ofDepth 3) restated ∧
      (∀ e ∈ restated, e.level = none) ∧ Along Follows (ofDepth 1) (ofDepth 3) restated ∧
      Along Spares (ofDepth 1) (ofDepth 3) restated := by
  have haccepts : Along (fun _ b e => b.Accepts e) (ofDepth 1) (ofDepth 3) restated := by
    decide +kernel
  have hfollows : Along Follows (ofDepth 1) (ofDepth 3) restated := by decide +kernel
  have htick : (ofDepth 1).tick = (ofDepth 3).tick := rfl
  have hpriced : ∀ e ∈ restated, e.level = none := by decide
  have hiff := follows_iff_spares htick (by decide) (by decide) (by decide) haccepts (.inl hpriced)
  exact ⟨haccepts, hpriced, hfollows, hiff.1 hfollows⟩

/-- The second of two bids is dropped, and the deletion of the first one brings it back. -/
def exposed : List BookEntry := [bid .new 100 none, bid .new 99 none, bid .delete 100 none]

/-- Bids that are put out of order by their index, and then one that is stated by its price. -/
def crossed : List BookEntry := [bid .new 100 (some 0), bid .new 105 (some 1), bid .change 105 none]

/--
A book of one level comes to refuse what a deeper one takes, or to show a bid that is not the best.
In the first two cases the bid that has been brought back is removed, or another put behind it. In
the last one a price is found in the deeper book only.
-/
theorem shallow_strays :
    (∀ entries ∈ [exposed ++ [bid .delete 99 none], exposed ++ [bid .new 98 none], crossed],
      Along (fun _ b e => b.Accepts e ∧
        (e.action = .new → ∀ side, (b.levels side).length < b.depth)) (ofDepth 1) (ofDepth 3)
          entries) ∧
    ¬ Along (fun c _ e => c.Accepts e) (ofDepth 1) (ofDepth 3) (exposed ++ [bid .delete 99 none]) ∧
    ¬ Along Follows (ofDepth 1) (ofDepth 3) (exposed ++ [bid .new 98 none]) ∧
    ¬ Along Follows (ofDepth 1) (ofDepth 3) crossed := by
  decide +kernel

end Book

end MarketFeed
