import MarketFeed.Proofs.Book.Heads
import Mathlib.Logic.Function.Basic

/-!
# The best of the levels that are set

A side that is given levels one after another, at prices that it has not been given before, holds
the best of them, as many as the book is deep. A level that is dropped on the way is not missed,
since all that are kept then are better and as many as there is room for.
-/

namespace MarketFeed

namespace Side

variable {side : Side} {levels levels' : List PriceLevel}

theorem isBetter_asymm {a b : Int64} (h : side.isBetter a b = true) :
    side.isBetter b a = false := by
  refine Bool.eq_false_iff.2 fun h' => ?_
  have hself := isBetter_trans h h'
  rw [isBetter_irrefl] at hself
  cases hself

theorem not_isBetter_trans {a b c : Int64} (hab : side.isBetter a b = false)
    (hbc : side.isBetter b c = false) : side.isBetter a c = false := by
  refine Bool.eq_false_iff.2 fun hac => ?_
  by_cases heq : a = b
  · rw [heq, hbc] at hac
    cases hac
  · rw [isBetter_trans (isBetter_of_ne heq hab) hac] at hbc
    cases hbc

/-- The levels, the best first. -/
def bestFirst (side : Side) (levels : List PriceLevel) : List PriceLevel :=
  levels.mergeSort fun a b => !side.isBetter b.price a.price

theorem bestFirst_perm (side : Side) (levels : List PriceLevel) :
    (side.bestFirst levels).Perm levels :=
  List.mergeSort_perm levels _

theorem ordered_bestFirst (hdistinct : (levels.map PriceLevel.price).Nodup) :
    side.Ordered (side.bestFirst levels) := by
  have hsorted : (side.bestFirst levels).Pairwise fun a b =>
      (!side.isBetter b.price a.price) = true := by
    refine List.pairwise_mergeSort (fun a b c => ?_) (fun a b => ?_) levels
    · simpa only [Bool.not_eq_true'] using fun hba hcb => not_isBetter_trans hcb hba
    · by_cases hbetter : side.isBetter a.price b.price = true
      · simp [isBetter_asymm hbetter]
      · simp [hbetter]
  have hnodup : (side.bestFirst levels).Pairwise fun a b => a.price ≠ b.price :=
    List.pairwise_map.1 (((side.bestFirst_perm levels).map PriceLevel.price).nodup_iff.2 hdistinct)
  refine (hsorted.and hnodup).imp fun {a b} ⟨hworse, hne⟩ => ?_
  exact isBetter_of_ne (Ne.symm hne) (by simpa using hworse)

theorem Ordered.eq_bestFirst (h : side.Ordered levels) (hperm : levels.Perm levels') :
    levels = side.bestFirst levels' :=
  h.eq_of_perm (ordered_bestFirst ((hperm.map PriceLevel.price).nodup_iff.1 h.nodup))
    (hperm.trans (side.bestFirst_perm levels').symm)

/-- Where levels at different prices come from does not matter to which of them are the best. -/
theorem bestFirst_congr (hperm : levels.Perm levels')
    (hdistinct : (levels.map PriceLevel.price).Nodup) :
    side.bestFirst levels = side.bestFirst levels' :=
  (ordered_bestFirst hdistinct).eq_bestFirst ((side.bestFirst_perm levels).trans hperm)

theorem take_insertIdx (i n : Nat) (level : PriceLevel) :
    ((levels.take n).insertIdx i level).take n = (levels.insertIdx i level).take n := by
  refine List.ext_getElem? fun j => ?_
  simp only [List.getElem?_take, List.getElem?_insertIdx, List.length_take]
  split
  · next hj =>
    split
    · rfl
    · split
      · have hroom : j ≤ min n levels.length ↔ j ≤ levels.length := by omega
        simp only [hroom]
      · rw [if_pos (by omega)]
  · rfl

theorem take_insertIdx_of_le {i n : Nat} (hi : n ≤ i) (level : PriceLevel) :
    (levels.insertIdx i level).take n = levels.take n := by
  refine List.ext_getElem? fun j => ?_
  simp only [List.getElem?_take]
  split
  · next hj => rw [List.getElem?_insertIdx_of_lt (by omega)]
  · rfl

end Side

namespace Book

variable {b : Book} {side : Side}

/-- The book with the best of these levels on its sides, as many as it is deep. -/
def withBest (b : Book) (set : Side → List PriceLevel) : Book :=
  { b with
    bids := (Side.bid.bestFirst (set .bid)).take b.depth
    asks := (Side.ask.bestFirst (set .ask)).take b.depth }

theorem levels_withBest (b : Book) (set : Side → List PriceLevel) (side : Side) :
    (b.withBest set).levels side = (side.bestFirst (set side)).take b.depth := by
  cases side <;> rfl

theorem withLevels_withBest (b : Book) (set : Side → List PriceLevel) (side : Side)
    (own : List PriceLevel) :
    (b.withBest set).withLevels side ((side.bestFirst own).take b.depth) =
      b.withBest (Function.update set side own) := by
  cases side <;> rfl

theorem withBest_congr {set set' : Side → List PriceLevel}
    (hperm : ∀ side, (set side).Perm (set' side))
    (hdistinct : ∀ side, ((set side).map PriceLevel.price).Nodup) :
    b.withBest set = b.withBest set' := by
  unfold withBest
  rw [Side.bestFirst_congr (hperm .bid) (hdistinct .bid),
    Side.bestFirst_congr (hperm .ask) (hdistinct .ask)]

/-- A level at a price that has not been set yet takes its place among the best. -/
theorem setLevel_withBest {set : Side → List PriceLevel} {level : PriceLevel}
    (hdistinct : ((set side ++ [level]).map PriceLevel.price).Nodup) :
    (b.withBest set).setLevel side level =
      .ok (b.withBest (Function.update set side (set side ++ [level]))) := by
  rw [List.map_append, List.nodup_append] at hdistinct
  obtain ⟨hset, -, hnew⟩ := hdistinct
  have hordered : side.Ordered (side.bestFirst (set side)) := Side.ordered_bestFirst hset
  have hlocates := Side.locates_locate hordered level.price
  have hlocate := Side.locate_of_prefix hordered (List.take_prefix b.depth _) level.price
  rw [← withLevels_withBest]
  unfold setLevel
  rw [levels_withBest, hlocate]
  cases hall : side.locate (side.bestFirst (set side)) level.price with
  | found i =>
    rw [hall] at hlocates
    obtain ⟨hi, hprice⟩ := hlocates
    have hmem := (side.bestFirst_perm (set side)).mem_iff.1 (List.getElem_mem hi)
    exact absurd hprice (hnew _ (List.mem_map_of_mem hmem) _ (List.mem_singleton_self _))
  | missing i =>
    rw [hall] at hlocates
    have hi := hlocates.1
    have hinsert := List.perm_insertIdx level (side.bestFirst (set side)) hi
    have hbest : (side.bestFirst (set side)).insertIdx i level =
        side.bestFirst (set side ++ [level]) :=
      (hordered.insert hlocates).eq_bestFirst (hinsert.trans
        ((List.Perm.cons level (side.bestFirst_perm _)).trans (List.perm_append_singleton _ _).symm))
    rw [← hbest]
    have hdepth : (b.withBest set).depth = b.depth := rfl
    simp only [Location.among, newLevel, levels_withBest, hdepth, List.length_take]
    by_cases hpast : b.depth ≤ i
    · rw [if_pos (by omega), Side.take_insertIdx_of_le hpast, ← levels_withBest, withLevels_self]
    · have hplace : min i (min b.depth (side.bestFirst (set side)).length) = i := by omega
      rw [hplace, if_neg hpast, if_neg (by omega), Side.take_insertIdx]

end Book

end MarketFeed
