import MarketFeed.Proofs.Arbiter.Redundancy
import Mathlib.Algebra.GroupWithZero.Nat
import Mathlib.Data.List.DropRight
import Mathlib.Order.Interval.Finset.Nat

/-!
# The gaps found

A gap is closed by the next number, although the feed that opened it may still be far ahead. Another
one can be opened then within the first, and what both are missing is counted twice. Since the last
reset every missing number has been counted once just if each gap was opened only after all the gaps
before it had been filled: `found_accounts`.
-/

namespace MarketFeed.Arbiter

variable {feeds : Nat} {calls : List Call}

/-! ## Ranges -/

/-- The numbers of a range, both ends included. -/
def interval (r : UInt64 × UInt64) : Finset Nat := Finset.Icc r.1.toNat r.2.toNat

/-- The different numbers of these ranges. -/
def numbers (ranges : List (UInt64 × UInt64)) : Finset Nat := ranges.toFinset.biUnion interval

theorem mem_interval {r : UInt64 × UInt64} {n : UInt64} :
    n.toNat ∈ interval r ↔ r.1 ≤ n ∧ n ≤ r.2 := by
  simp [interval, UInt64.le_iff_toNat_le]

theorem numbers_cons (r : UInt64 × UInt64) (ranges : List (UInt64 × UInt64)) :
    numbers (r :: ranges) = interval r ∪ numbers ranges := by
  simp [numbers, Finset.biUnion_insert]

theorem card_numbers_le (ranges : List (UInt64 × UInt64)) :
    (numbers ranges).card ≤ (ranges.map fun r => (interval r).card).sum := by
  induction ranges with
  | nil => simp [numbers]
  | cons r ranges ih =>
    rw [numbers_cons, List.map_cons, List.sum_cons]
    have hunion := Finset.card_union_le (interval r) (numbers ranges)
    omega

/-- The lengths of the ranges add up to the number of their numbers just if no two overlap. -/
theorem sum_card_interval_iff (ranges : List (UInt64 × UInt64)) :
    (ranges.map fun r => (interval r).card).sum = (numbers ranges).card ↔
      ranges.Pairwise fun q r => Disjoint (interval q) (interval r) := by
  induction ranges with
  | nil => simp [numbers]
  | cons r ranges ih =>
    have hle := card_numbers_le ranges
    have hunion := Finset.card_union_le (interval r) (numbers ranges)
    have hdisjoint : Disjoint (interval r) (numbers ranges) ↔
        ∀ q ∈ ranges, Disjoint (interval r) (interval q) := by
      simp [numbers, Finset.disjoint_biUnion_right]
    rw [List.pairwise_cons, ← ih, ← hdisjoint, ← Finset.card_union_eq_card_add_card,
      numbers_cons, List.map_cons, List.sum_cons]
    omega

/-! ## What an observation records -/

/-- The range that was found missing. -/
def Sighting.range? (s : Sighting) : Option (UInt64 × UInt64) :=
  match s.verdict with
  | .gap missing => some (s.number - missing, s.number - 1)
  | .first | .next | .duplicate | .ahead => none

/-- The ranges found missing since the last reset. -/
def found (feeds : Nat) (calls : List Call) : List (UInt64 × UInt64) :=
  (log feeds calls).filterMap Sighting.range?

theorem toNat_sub_one_of_lt {last number : UInt64} (h : last < number) :
    (number - 1).toNat = number.toNat - 1 := by
  rw [UInt64.lt_iff_toNat_lt] at h
  exact UInt64.toNat_sub_of_le _ _ (by rw [UInt64.le_iff_toNat_le, UInt64.toNat_one]; omega)

/--
An observation that opens a gap while none is open: from the number that is due to the one before
the number that has come instead.
-/
structure Opens (a : Arbiter) (feed : Nat) (number : UInt64) (r : UInt64 × UInt64)
    (last : UInt64) : Prop where
  before : a.last = some last
  after : (a.observe feed number).2.last = some last
  closed : a.inGap = false
  opened : (a.observe feed number).2.inGap = true
  ends : r = (last + 1, number - 1)
  start : r.1.toNat = last.toNat + 1
  stop : r.2.toNat + 1 = number.toNat
  nonempty : r.1 ≤ r.2

theorem opens_of_range? {a : Arbiter} {feed : Nat} {number : UInt64} {r : UInt64 × UInt64}
    (h : Sighting.range? ⟨feed, number, (a.observe feed number).1⟩ = some r) :
    ∃ last, a.Opens feed number r last := by
  have hjudges := a.judges_observe feed number
  generalize hverdict : (a.observe feed number).1 = verdict at h hjudges
  generalize hlast' : (a.observe feed number).2.last = last' at hjudges
  generalize hopen : (a.observe feed number).2.inGap = inGap' at hjudges
  cases hjudges with
  | first => cases h
  | next => cases h
  | ahead => cases h
  | duplicate => cases h
  | @gap last hlast hnext hlt hgap =>
    have hends : r = (last + 1, number - 1) := by
      have hstart : number - (number - (last + 1)) = last + 1 := by grind
      simpa [Sighting.range?, hstart] using h.symm
    have hstart := toNat_add_one_of_lt hlt
    have hstop := toNat_sub_one_of_lt hlt
    rw [ne_eq, ← UInt64.toNat_inj, hstart] at hnext
    rw [UInt64.lt_iff_toNat_lt] at hlt
    subst hends
    refine ⟨last, hlast, hlast', hgap, hopen, rfl, hstart, ?_, ?_⟩
    · rw [hstop]
      omega
    · rw [UInt64.le_iff_toNat_le, hstart, hstop]
      omega

theorem record_of_closed {a : Arbiter} {feed : Nat} {number : UInt64}
    (h : Sighting.range? ⟨feed, number, (a.observe feed number).1⟩ = none) :
    (a.observe feed number).2.gaps = a.gaps ∧
      (a.observe feed number).2.totalMissing = a.totalMissing := by
  revert h
  unfold observe
  cases a.last with
  | none => simp
  | some last =>
    dsimp only
    split
    · simp
    · split
      · split
        · simp
        · simp [Sighting.range?]
      · simp

theorem record_of_opened {a : Arbiter} {feed : Nat} {number : UInt64} {r : UInt64 × UInt64}
    (h : Sighting.range? ⟨feed, number, (a.observe feed number).1⟩ = some r) :
    (a.observe feed number).2.gaps = a.gaps ++ [r] ∧
      (a.observe feed number).2.totalMissing.toNat =
        min (UInt64.size - 1) (a.totalMissing.toNat + (interval r).card) := by
  obtain ⟨last, hopens⟩ := opens_of_range? h
  obtain ⟨hlast, -, hgap, -, rfl, hnext, hstop, hle⟩ := hopens
  rw [UInt64.le_iff_toNat_le] at hle
  dsimp only at hnext hstop hle
  have hbelow : last < number := by
    rw [UInt64.lt_iff_toNat_lt]
    omega
  have hahead : number ≠ last + 1 := by
    rw [ne_eq, ← UInt64.toNat_inj, hnext]
    omega
  have hmissing : (number - (last + 1)).toNat = number.toNat - (last.toNat + 1) := by
    rw [UInt64.toNat_sub_of_le _ _ (by rw [UInt64.le_iff_toNat_le]; omega), hnext]
  have hcard : (interval (last + 1, number - 1)).card = number.toNat - (last.toNat + 1) := by
    rw [interval, Nat.card_Icc, hstop, hnext]
  unfold observe
  simp only [hlast, hahead, if_false, hbelow, if_true, hgap, Bool.false_eq_true, hcard]
  refine ⟨trivial, ?_⟩
  rw [saturatingAdd, hmissing, UInt64.toNat_ofNat_of_lt' (by simp [UInt64.size]), UInt64.size]
  omega

/-! ## What a run records -/

def Call.isObserve : Call → Bool
  | .observe _ _ => true
  | .reset => false

/-- The arbiter as the last reset left it, or as it was created. -/
def origin (feeds : Nat) (calls : List Call) : Arbiter := run feeds (calls.rdropWhile Call.isObserve)

theorem origin_observe (feed : Nat) (number : UInt64) :
    origin feeds (calls ++ [.observe feed number]) = origin feeds calls := by
  rw [origin, List.rdropWhile_concat_pos _ _ _ rfl, origin]

theorem origin_reset : origin feeds (calls ++ [.reset]) = (run feeds calls).reset := by
  rw [origin, List.rdropWhile_concat_neg _ _ _ (by simp [Call.isObserve]), run_reset]

theorem found_observe (feed : Nat) (number : UInt64) :
    found feeds (calls ++ [.observe feed number]) = found feeds calls ++
      (Sighting.range? ⟨feed, number, ((run feeds calls).observe feed number).1⟩).toList := by
  rw [found, log_observe, List.filterMap_append]
  rfl

@[simp] theorem found_reset : found feeds (calls ++ [.reset]) = [] := by
  simp [found]

/-- The record of a run is the one it began with, and what was found since. -/
theorem record_run (feeds : Nat) (calls : List Call) :
    (run feeds calls).gaps = (origin feeds calls).gaps ++ found feeds calls ∧
      (run feeds calls).totalMissing.toNat = min (UInt64.size - 1)
        ((origin feeds calls).totalMissing.toNat +
          ((found feeds calls).map fun r => (interval r).card).sum) := by
  induction calls using List.reverseRecOn with
  | nil => simp [origin, found, create]
  | append_singleton calls c ih =>
    obtain ⟨hgaps, htotal⟩ := ih
    cases c with
    | reset =>
      have hlt := (run feeds calls).totalMissing.toNat_lt
      simp [origin_reset, Arbiter.reset]
      omega
    | observe feed number =>
      rw [run_observe, origin_observe, found_observe]
      cases hrange : Sighting.range? ⟨feed, number, ((run feeds calls).observe feed number).1⟩ with
      | none =>
        obtain ⟨hkept, hsame⟩ := record_of_closed hrange
        simp [hkept, hsame, hgaps, htotal]
      | some r =>
        obtain ⟨hadded, hcounted⟩ := record_of_opened hrange
        constructor
        · simp [hadded, hgaps]
        · rw [hcounted, htotal]
          simp
          omega

/-! ## Gaps within gaps -/

/-- A gap was opened only when all that the earlier ones were missing had been taken. -/
def FilledFirst (log : List Sighting) : Prop :=
  ∀ early s later, log = early ++ s :: later → s.range?.isSome →
    ∀ r ∈ early.filterMap Sighting.range?, ∀ n, r.1 ≤ n → n ≤ r.2 →
      ∃ t ∈ early, t.verdict.isAccepted = true ∧ t.number = n

theorem filledFirst_concat {log : List Sighting} {s : Sighting} :
    FilledFirst (log ++ [s]) ↔ FilledFirst log ∧
      (s.range?.isSome → ∀ r ∈ log.filterMap Sighting.range?, ∀ n, r.1 ≤ n → n ≤ r.2 →
        ∃ t ∈ log, t.verdict.isAccepted = true ∧ t.number = n) := by
  constructor
  · intro h
    exact ⟨fun early s' later hlog => h early s' (later ++ [s]) (by simp [hlog]), h log s [] rfl⟩
  · rintro ⟨hlog, hs⟩ early s' later heq
    rcases List.eq_nil_or_concat later with rfl | ⟨later, t, rfl⟩
    · obtain ⟨rfl, hlast⟩ := List.append_inj' heq rfl
      obtain rfl := List.singleton_inj.1 hlast
      exact hs
    · rw [List.concat_eq_append, ← List.cons_append, ← List.append_assoc] at heq
      exact hlog early s' later (List.append_inj' heq rfl).1

theorem mem_taken_iff {n : UInt64} :
    n ∈ taken feeds calls ↔ ∃ t ∈ log feeds calls, t.verdict.isAccepted = true ∧ t.number = n := by
  simp [taken, and_assoc]

theorem le_last_of_mem_taken (hunwrapped : 0 ∉ (taken feeds calls).tail) {n last : UInt64}
    (hn : n ∈ taken feeds calls) (hlast : (run feeds calls).last = some last) : n ≤ last := by
  obtain ⟨i, hi⟩ := List.mem_iff_getElem?.1 hn
  rw [last_run, List.getLast?_eq_getElem?] at hlast
  obtain ⟨hlt, -⟩ := List.getElem?_eq_some_iff.1 hi
  have hs : (taken feeds calls)[0]? = some (taken feeds calls)[0] :=
    List.getElem?_eq_getElem (by omega)
  rw [UInt64.le_iff_toNat_le, toNat_taken hunwrapped hs hi, toNat_taken hunwrapped hs hlast]
  omega

/--
Where a range lies that was found missing: behind the first number taken, and not past the one that
is due. While no gap is open, its first number has been taken.
-/
structure Begins (feeds : Nat) (calls : List Call) (r : UInt64 × UInt64) (last : UInt64) : Prop where
  nonempty : r.1 ≤ r.2
  after : ∀ s ∈ (taken feeds calls).head?, s ≤ r.1
  due : r.1.toNat ≤ last.toNat + 1
  passed : (run feeds calls).inGap = false → r.1 ≤ last

theorem head?_observe {last : UInt64} (hlast : (run feeds calls).last = some last) (feed : Nat)
    (number : UInt64) :
    (taken feeds (calls ++ [.observe feed number])).head? = (taken feeds calls).head? := by
  rw [taken_observe]
  cases htaken : taken feeds calls with
  | nil => simp [last_run, htaken] at hlast
  | cons s later => simp

/-- A gap stays open until the number that is due then has been taken. -/
theorem passed_observe {a : Arbiter} {feed : Nat} {number first last : UInt64}
    (hlast : a.last = some last) (hdue : first.toNat ≤ last.toNat + 1)
    (hpassed : a.inGap = false → first ≤ last)
    (hwrap : (a.observe feed number).1.isAccepted = true → number ≠ 0)
    (hclosed : (a.observe feed number).2.inGap = false) :
    ∀ last' ∈ (a.observe feed number).2.last, first ≤ last' := by
  have hjudges := a.judges_observe feed number
  generalize (a.observe feed number).1 = verdict at hjudges hwrap
  generalize (a.observe feed number).2.last = last' at hjudges ⊢
  generalize (a.observe feed number).2.inGap = inGap' at hjudges hclosed
  cases hjudges with
  | first h => simp [hlast] at h
  | @next last' h hnext =>
    obtain rfl := Option.some.inj (hlast.symm.trans h)
    have hlt := last.toNat_lt
    have hpos := hwrap rfl
    rw [hnext, ne_eq, ← UInt64.toNat_inj, UInt64.toNat_add] at hpos
    simp only [Option.mem_def, Option.some.injEq, forall_eq', UInt64.le_iff_toNat_le, hnext,
      UInt64.toNat_add]
    simp only [UInt64.toNat_one, UInt64.toNat_zero] at hpos ⊢
    omega
  | gap => cases hclosed
  | ahead => cases hclosed
  | @duplicate last' h =>
    obtain rfl := Option.some.inj (hlast.symm.trans h)
    simpa using hpassed hclosed

theorem Begins.observe {r : UInt64 × UInt64} {last : UInt64} (h : Begins feeds calls r last)
    (hlast : (run feeds calls).last = some last) {feed : Nat} {number : UInt64}
    (hunwrapped : 0 ∉ (taken feeds (calls ++ [.observe feed number])).tail) :
    ∃ last', (run feeds (calls ++ [.observe feed number])).last = some last' ∧
      Begins feeds (calls ++ [.observe feed number]) r last' := by
  have hwrap := ne_zero_of_accepted hunwrapped hlast
  obtain ⟨last', hlast', hle⟩ := le_last_observe hlast hwrap
  rw [UInt64.le_iff_toNat_le] at hle
  refine ⟨last', by rw [run_observe, hlast'], h.nonempty, ?_, ?_, ?_⟩
  · rw [head?_observe hlast]
    exact h.after
  · have hdue := h.due
    omega
  · rw [run_observe]
    intro hclosed
    exact passed_observe hlast h.due h.passed hwrap hclosed last' hlast'

theorem begins_opened {feed : Nat} {number : UInt64} {r : UInt64 × UInt64}
    (hunwrapped : 0 ∉ (taken feeds calls).tail)
    (h : Sighting.range? ⟨feed, number, ((run feeds calls).observe feed number).1⟩ = some r) :
    ∃ last, (run feeds (calls ++ [.observe feed number])).last = some last ∧
      Begins feeds (calls ++ [.observe feed number]) r last := by
  obtain ⟨last, hopens⟩ := opens_of_range? h
  have hstart := hopens.start
  refine ⟨last, by rw [run_observe, hopens.after], hopens.nonempty, ?_, ?_, ?_⟩
  · rw [head?_observe hopens.before]
    intro s hs
    have hle := UInt64.le_iff_toNat_le.1 (head_le_last hunwrapped hs hopens.before)
    rw [UInt64.le_iff_toNat_le]
    omega
  · rw [hstart]
  · rw [run_observe, hopens.opened]
    intro hclosed
    cases hclosed

theorem found_begins (hunwrapped : 0 ∉ (taken feeds calls).tail) :
    ∀ r ∈ found feeds calls, ∃ last, (run feeds calls).last = some last ∧
      Begins feeds calls r last := by
  induction calls using List.reverseRecOn with
  | nil => simp [found]
  | append_singleton calls c ih =>
    cases c with
    | reset => simp
    | observe feed number =>
      intro r hr
      rw [found_observe] at hr
      rcases List.mem_append.1 hr with hr | hr
      · obtain ⟨last, hlast, hbegins⟩ := ih (unwrapped_of_observe hunwrapped) r hr
        exact hbegins.observe hlast hunwrapped
      · exact begins_opened (unwrapped_of_observe hunwrapped) (Option.mem_toList.1 hr)

/-- A new gap keeps clear of an earlier one just if that has been filled. -/
theorem disjoint_opened_iff {feed : Nat} {number : UInt64} {q r : UInt64 × UInt64}
    (hunwrapped : 0 ∉ (taken feeds calls).tail) (hq : q ∈ found feeds calls)
    (hr : Sighting.range? ⟨feed, number, ((run feeds calls).observe feed number).1⟩ = some r) :
    Disjoint (interval q) (interval r) ↔ ∀ n, q.1 ≤ n → n ≤ q.2 → n ∈ taken feeds calls := by
  obtain ⟨last, hopens⟩ := opens_of_range? hr
  obtain ⟨last', hlast, hbegins⟩ := found_begins hunwrapped q hq
  obtain rfl := Option.some.inj (hopens.before.symm.trans hlast)
  have hstart := hopens.start
  constructor
  · intro hdisjoint n hfirst hn
    -- Otherwise the number that is due would be missing in both.
    have hq2 : q.2 ≤ last := by
      by_contra hpast
      have hpast := UInt64.lt_iff_toNat_lt.1 (UInt64.not_le.1 hpast)
      refine Finset.disjoint_left.1 hdisjoint (mem_interval.2 ⟨?_, ?_⟩)
        (mem_interval.2 ⟨UInt64.le_refl r.1, hopens.nonempty⟩)
      · rw [UInt64.le_iff_toNat_le, hstart]
        exact hbegins.due
      · rw [UInt64.le_iff_toNat_le, hstart]
        omega
    cases hs : (taken feeds calls).head? with
    | none => simp [last_run, List.head?_eq_none_iff.1 hs] at hlast
    | some s =>
      exact mem_taken hunwrapped hs hlast (UInt64.le_trans (hbegins.after s hs) hfirst)
        (UInt64.le_trans hn hq2)
  · intro hfilled
    have hle := UInt64.le_iff_toNat_le.1 <|
      le_last_of_mem_taken hunwrapped (hfilled q.2 hbegins.nonempty (UInt64.le_refl _)) hlast
    rw [Finset.disjoint_left]
    intro x hx hx'
    rw [interval, Finset.mem_Icc] at hx hx'
    omega

theorem pairwise_found_iff (hunwrapped : 0 ∉ (taken feeds calls).tail) :
    (found feeds calls).Pairwise (fun q r => Disjoint (interval q) (interval r)) ↔
      FilledFirst (log feeds calls) := by
  induction calls using List.reverseRecOn with
  | nil => simp [found, FilledFirst]
  | append_singleton calls c ih =>
    cases c with
    | reset => simp [FilledFirst]
    | observe feed number =>
      have hbefore := unwrapped_of_observe hunwrapped
      rw [found_observe, log_observe, filledFirst_concat, ← ih hbefore, List.pairwise_append]
      cases hrange : Sighting.range? ⟨feed, number, ((run feeds calls).observe feed number).1⟩ with
      | none => simp
      | some r =>
        simp only [Option.toList, List.pairwise_singleton, List.mem_singleton, forall_eq,
          true_and, Option.isSome_some, forall_const, ← mem_taken_iff]
        refine and_congr_right fun _ => forall₂_congr fun q hq => ?_
        exact disjoint_opened_iff hbefore hq hrange

theorem found_nonempty : ∀ r ∈ found feeds calls, r.1 ≤ r.2 := by
  induction calls using List.reverseRecOn with
  | nil => simp [found]
  | append_singleton calls c ih =>
    cases c with
    | reset => simp
    | observe feed number =>
      intro r hr
      rw [found_observe] at hr
      rcases List.mem_append.1 hr with hr | hr
      · exact ih r hr
      · obtain ⟨last, hopens⟩ := opens_of_range? (Option.mem_toList.1 hr)
        exact hopens.nonempty

/--
What is recorded between two resets: ranges that are not empty, after those that were there before,
and the count grows by their lengths until it is saturated. As long as the numbers taken do not
wrap, no two ranges overlap if and only if every gap was opened after the earlier ones had been
filled; and if and only if that is so, the count has grown by the number of the different numbers
that were found missing.
-/
theorem found_accounts (feeds : Nat) (calls : List Call) :
    (run feeds calls).gaps = (origin feeds calls).gaps ++ found feeds calls ∧
    (∀ r ∈ found feeds calls, r.1 ≤ r.2) ∧
    (run feeds calls).totalMissing.toNat = min (UInt64.size - 1)
      ((origin feeds calls).totalMissing.toNat +
        ((found feeds calls).map fun r => (interval r).card).sum) ∧
    (0 ∉ (taken feeds calls).tail →
      ((found feeds calls).Pairwise (fun q r => Disjoint (interval q) (interval r)) ↔
        FilledFirst (log feeds calls)) ∧
      ((run feeds calls).totalMissing.toNat < UInt64.size - 1 →
        ((run feeds calls).totalMissing.toNat =
            (origin feeds calls).totalMissing.toNat + (numbers (found feeds calls)).card ↔
          FilledFirst (log feeds calls)))) := by
  obtain ⟨hgaps, htotal⟩ := record_run feeds calls
  refine ⟨hgaps, found_nonempty, htotal, fun hunwrapped => ?_⟩
  have hpairwise := pairwise_found_iff hunwrapped
  refine ⟨hpairwise, fun hbelow => ?_⟩
  rw [← hpairwise, ← sum_card_interval_iff]
  omega

/-- Each feed jumps over a number, the second one after what the first one lost has been filled. -/
theorem found_accounts_jumps :
    0 ∉ (taken 2 jumps).tail ∧ (run 2 jumps).totalMissing.toNat < UInt64.size - 1 ∧
      (found 2 jumps).Pairwise (fun q r => Disjoint (interval q) (interval r)) ∧
      ((run 2 jumps).totalMissing.toNat =
          (origin 2 jumps).totalMissing.toNat + (numbers (found 2 jumps)).card ↔
        FilledFirst (log 2 jumps)) := by
  have hunwrapped : 0 ∉ (taken 2 jumps).tail := by decide
  have hbelow : (run 2 jumps).totalMissing.toNat < UInt64.size - 1 := by decide
  exact ⟨hunwrapped, hbelow, by decide, ((found_accounts 2 jumps).2.2.2 hunwrapped).2 hbelow⟩

/-- The first feed jumps to 10. The second one brings the number that is due and jumps, too. -/
def jumpsWithin : List Call := [.observe 0 1, .observe 0 10, .observe 1 2, .observe 1 5]

theorem polled_jumpsWithin : Polled 2 jumpsWithin :=
  .observe (.observe (.observe (.observe .nil (by decide) (by decide) 1) (by decide) (by decide) 10)
    (by decide) (by decide) 2) (by decide) (by decide) 5

/-- The second gap lies within the first, and ten numbers are counted where eight are missing. -/
theorem Polled.counted_twice :
    Polled 2 jumpsWithin ∧ found 2 jumpsWithin = [(2, 9), (3, 4)] ∧
      ¬ (found 2 jumpsWithin).Pairwise (fun q r => Disjoint (interval q) (interval r)) ∧
      (origin 2 jumpsWithin).totalMissing = 0 ∧ (run 2 jumpsWithin).totalMissing = 10 ∧
      (numbers (found 2 jumpsWithin)).card = 8 :=
  ⟨polled_jumpsWithin, by decide, by decide, by decide, by decide, by decide⟩

end MarketFeed.Arbiter
