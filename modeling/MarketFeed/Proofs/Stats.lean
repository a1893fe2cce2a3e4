import MarketFeed.Stats
import Mathlib.Algebra.Order.Ring.Nat
import Mathlib.Data.List.DropRight
import Mathlib.Data.List.Sort

/-!
# Order statistics of the latest latencies

A window holds the newest latencies that were recorded, whatever else was counted in between
(`FeedStats.holds_counted`). Its statistics stand at fixed places of these in order
(`FeedStats.latencies_described`), and there are such places, however few the latencies are.
-/

namespace MarketFeed

namespace Window

/-- The window holds the newest of these entries, as many as it can. -/
def Holds (w : Window) (xs : List UInt64) : Prop := w.toList = xs.rtake capacity

theorem length_rtake (xs : List UInt64) :
    (xs.rtake capacity).length = min xs.length capacity := by
  rw [List.rtake, List.length_drop]
  omega

theorem holds_empty : empty.Holds [] := rfl

theorem Holds.push {w : Window} {xs : List UInt64} (h : w.Holds xs) (x : UInt64) :
    (w.push x).Holds (xs ++ [x]) := by
  have hlength : w.toList.length = min xs.length capacity := by
    rw [h, length_rtake]
  rw [Holds, toList_push, List.rtake, List.length_append, List.length_singleton]
  split
  · next hfull =>
    have hpos : 0 < capacity := by decide
    have hfirst : xs.length + 1 - capacity = xs.length - capacity + 1 := by omega
    rw [h, List.rtake, List.tail_drop, hfirst, List.drop_append_of_le_length (by omega)]
  · next hroom =>
    have hcapacity : xs.length < capacity := by omega
    rw [h, List.rtake, Nat.sub_eq_zero_of_le (Nat.le_of_lt hcapacity),
      Nat.sub_eq_zero_of_le hcapacity]
    rfl

end Window

/-! ## The statistics of latencies in order -/

/-- A sum of words that fits in one is formed without wrapping. -/
theorem toNat_foldl_add (xs : List UInt64) (total : UInt64)
    (hfits : total.toNat + (xs.map UInt64.toNat).sum < 2 ^ 64) :
    (xs.foldl (· + ·) total).toNat = total.toNat + (xs.map UInt64.toNat).sum := by
  induction xs generalizing total with
  | nil => rfl
  | cons x xs ih =>
    rw [List.map_cons, List.sum_cons, ← Nat.add_assoc] at hfits ⊢
    have hadd : (total + x).toNat = total.toNat + x.toNat := by
      rw [UInt64.toNat_add, Nat.mod_eq_of_lt (by omega)]
    rw [List.foldl_cons, ih (total + x) (by rwa [hadd]), hadd]

namespace LatencyStats

/-- The statistics are those of latencies in this order: each is the latency at its place, and the
mean is that of their true sum. -/
structure Describes (stats : LatencyStats) (sorted : List UInt64) : Prop where
  min_eq : sorted[0]? = some stats.min
  max_eq : sorted[sorted.length - 1]? = some stats.max
  median_eq : sorted[sorted.length / 2]? = some stats.median
  percentile99_eq : sorted[99 * sorted.length / 100]? = some stats.percentile99
  mean_eq : ∃ total : UInt64, total.toNat = (sorted.map UInt64.toNat).sum ∧
    stats.mean = total.toFloat / sorted.length.toFloat

variable {stats : LatencyStats} {sorted : List UInt64}

/-- Of latencies in order, one at a later place is no less. -/
theorem le_of_places (hsorted : sorted.Pairwise (· ≤ ·)) {i j : Nat} {x y : UInt64}
    (hx : sorted[i]? = some x) (hy : sorted[j]? = some y) (hij : i ≤ j) : x ≤ y := by
  obtain ⟨hi, rfl⟩ := List.getElem?_eq_some_iff.mp hx
  obtain ⟨hj, rfl⟩ := List.getElem?_eq_some_iff.mp hy
  rcases Nat.eq_or_lt_of_le hij with rfl | hlt
  · exact UInt64.le_refl _
  · exact List.pairwise_iff_getElem.mp hsorted i j hi hj hlt

/-- The statistics rise from the least latency to the greatest. -/
theorem Describes.ordered (h : stats.Describes sorted) (hsorted : sorted.Pairwise (· ≤ ·)) :
    stats.min ≤ stats.median ∧ stats.median ≤ stats.percentile99 ∧
      stats.percentile99 ≤ stats.max := by
  have hpos : 0 < sorted.length := (List.getElem?_eq_some_iff.mp h.min_eq).choose
  exact ⟨le_of_places hsorted h.min_eq h.median_eq (Nat.zero_le _),
    le_of_places hsorted h.median_eq h.percentile99_eq (by omega),
    le_of_places hsorted h.percentile99_eq h.max_eq (by omega)⟩

end LatencyStats

theorem getElem?_eq_some_getD {xs : List UInt64} {i : Nat} (h : i < xs.length) :
    xs[i]? = some (xs.getD i 0) := by
  rw [List.getD_eq_getElem?_getD, List.getElem?_eq_getElem h, Option.getD_some]

namespace Window

/-- A window that is not empty has statistics, those of its entries in order. -/
theorem stats?_describes (w : Window) (hsome : w.toList ≠ [])
    (hfits : (w.toList.map UInt64.toNat).sum < 2 ^ 64) :
    ∃ stats, w.stats? = some stats ∧ stats.Describes w.toList.mergeSort := by
  have hperm : w.toList.mergeSort.Perm w.toList := List.mergeSort_perm ..
  have hpos : 0 < w.toList.mergeSort.length := by
    rw [hperm.length_eq]
    exact List.length_pos_of_ne_nil hsome
  rw [← (hperm.map UInt64.toNat).sum_nat] at hfits
  have htotal := toNat_foldl_add w.toList.mergeSort 0 (by simpa using hfits)
  rw [UInt64.toNat_zero, Nat.zero_add] at htotal
  rw [stats?, if_neg (Nat.ne_of_gt hpos)]
  refine ⟨_, rfl, ?_⟩
  exact {
    min_eq := getElem?_eq_some_getD hpos
    max_eq := getElem?_eq_some_getD (by omega)
    median_eq := getElem?_eq_some_getD (by omega)
    percentile99_eq := by
      rw [Nat.mul_comm]
      exact getElem?_eq_some_getD (by omega)
    mean_eq := ⟨_, htotal, rfl⟩ }

end Window

/-! ## What is counted -/

/-- What latencies are recorded of. -/
inductive Timed
  | decode
  | update
deriving DecidableEq

/-- What the statistics count. -/
inductive Counted
  | message
  | read (bytes : UInt64)
  | garbled
  | partialRead
  | latency (of : Timed) (nanoseconds : UInt64)
  | gap (missing : UInt64)
  | join
  | joinRetry
  | recovery
  | replayed (n : UInt64)

/-- The latency that is recorded, if it is one of these. -/
def Counted.latency? (timed : Timed) : Counted → Option UInt64
  | .latency of nanoseconds => if of = timed then some nanoseconds else none
  | _ => none

namespace FeedStats

/-- Counts one thing. -/
def count (s : FeedStats) : Counted → FeedStats
  | .message => s.countMessage
  | .read bytes => s.countRead bytes
  | .garbled => s.countGarbled
  | .partialRead => s.countPartial
  | .latency .decode nanoseconds => s.countDecodeLatency nanoseconds
  | .latency .update nanoseconds => s.countUpdateLatency nanoseconds
  | .gap missing => s.countGap missing
  | .join => s.countJoin
  | .joinRetry => s.countJoinRetry
  | .recovery => s.countRecovery
  | .replayed n => s.countReplayed n

/-- The window of such latencies. -/
def latencies (s : FeedStats) : Timed → Window
  | .decode => s.decodeLatencies
  | .update => s.updateLatencies

/-- Counting touches a window only when it records one of its latencies. -/
theorem latencies_count (s : FeedStats) (counted : Counted) (timed : Timed) :
    (s.count counted).latencies timed =
      match counted.latency? timed with
      | some nanoseconds => (s.latencies timed).push nanoseconds
      | none => s.latencies timed := by
  cases counted with
  | latency of nanoseconds => cases of <;> cases timed <;> rfl
  | _ => cases timed <;> rfl

/-- A window holds the newest latencies of all that was counted. -/
theorem holds_counted (counted : List Counted) (timed : Timed) :
    ((counted.foldl count empty).latencies timed).Holds
      (counted.filterMap (·.latency? timed)) := by
  induction counted using List.reverseRecOn with
  | nil => cases timed <;> exact Window.holds_empty
  | append_singleton counted last ih =>
    rw [List.foldl_append, List.foldl_cons, List.foldl_nil, latencies_count,
      List.filterMap_append]
    cases hlast : last.latency? timed with
    | none =>
      rw [List.filterMap_cons_none hlast, List.filterMap_nil, List.append_nil]
      exact ih
    | some nanoseconds =>
      rw [List.filterMap_cons_some hlast, List.filterMap_nil]
      exact ih.push nanoseconds

/-- Whatever is counted, the statistics of the recorded latencies stand at their places among the
newest of these in order, all of which there are, and rise from the least to the greatest. -/
theorem latencies_described (counted : List Counted) (timed : Timed)
    (hsome : counted.filterMap (·.latency? timed) ≠ [])
    (hfits : (((counted.filterMap (·.latency? timed)).rtake Window.capacity).map
      UInt64.toNat).sum < 2 ^ 64) :
    ∃ sorted stats,
      sorted.Perm ((counted.filterMap (·.latency? timed)).rtake Window.capacity) ∧
      sorted.Pairwise (· ≤ ·) ∧
      sorted.length = min (counted.filterMap (·.latency? timed)).length Window.capacity ∧
      0 < sorted.length ∧ sorted.length / 2 < sorted.length ∧
      99 * sorted.length / 100 < sorted.length ∧
      ((counted.foldl count empty).latencies timed).stats? = some stats ∧
      stats.Describes sorted ∧
      stats.min ≤ stats.median ∧ stats.median ≤ stats.percentile99 ∧
      stats.percentile99 ≤ stats.max := by
  have hholds := holds_counted counted timed
  generalize (counted.foldl count empty).latencies timed = w at hholds
  generalize counted.filterMap (·.latency? timed) = recorded at *
  have hperm : w.toList.mergeSort.Perm (recorded.rtake Window.capacity) :=
    hholds ▸ List.mergeSort_perm ..
  have hlength : w.toList.mergeSort.length = min recorded.length Window.capacity := by
    rw [hperm.length_eq, Window.length_rtake]
  have hpos : 0 < w.toList.mergeSort.length := by
    rw [hlength]
    exact Nat.lt_min.mpr ⟨List.length_pos_of_ne_nil hsome, by decide⟩
  have hsorted : w.toList.mergeSort.Pairwise (· ≤ ·) := List.pairwise_mergeSort' _ _
  obtain ⟨stats, hstats, hdescribes⟩ := w.stats?_describes
    (List.ne_nil_of_length_pos (hpos.trans_eq (List.length_mergeSort ..))) (hholds ▸ hfits)
  exact ⟨_, stats, hperm, hsorted, hlength, hpos, by omega, by omega, hstats, hdescribes,
    hdescribes.ordered hsorted⟩

/-- Three times to decode, with a join and an update of books between them. -/
theorem latencies_described_join :
    let counted : List Counted := [.latency .decode 30, .message, .join, .latency .update 7,
      .latency .decode 10, .read 46, .latency .decode 20]
    ∃ stats, ((counted.foldl count empty).latencies .decode).stats? = some stats ∧
      stats.min = 10 ∧ stats.median = 20 ∧ stats.percentile99 = 30 ∧ stats.max = 30 := by
  intro counted
  obtain ⟨sorted, stats, hperm, hsorted, -, -, -, -, hstats, hdescribes, -⟩ :=
    latencies_described counted .decode (by decide) (by decide)
  have hten : sorted = [10, 20, 30] :=
    (hperm.trans (by decide)).eq_of_pairwise' hsorted (by decide)
  subst hten
  exact ⟨stats, hstats, (Option.some.inj hdescribes.min_eq).symm,
    (Option.some.inj hdescribes.median_eq).symm,
    (Option.some.inj hdescribes.percentile99_eq).symm,
    (Option.some.inj hdescribes.max_eq).symm⟩

end FeedStats

end MarketFeed
