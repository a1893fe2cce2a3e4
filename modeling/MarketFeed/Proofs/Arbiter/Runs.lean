import MarketFeed.Arbiter
import Mathlib.Data.List.Induction

/-!
# Runs of an arbiter

A run is any sequence of observations and resets. Whatever the feeds bring and in whatever order,
the numbers taken between two resets follow on each other, and what is not taken leaves no trace in
what will be: `gapless`.
-/

namespace MarketFeed

/-- Whether the number came before it was expected. -/
def Verdict.isAhead : Verdict → Bool
  | gap _ | ahead => true
  | first | next | duplicate => false

namespace Arbiter

/-! ## One observation -/

/-- What can be made of a number: the verdict, the number taken last then, and whether in a gap. -/
inductive Judges (a : Arbiter) (number : UInt64) : Verdict → Option UInt64 → Bool → Prop
  | first (h : a.last = none) : Judges a number .first (some number) a.inGap
  | next {last : UInt64} (h : a.last = some last) (hnext : number = last + 1) :
      Judges a number .next (some number) false
  | gap {last : UInt64} (h : a.last = some last) (hnext : number ≠ last + 1)
      (hlt : last < number) (hgap : a.inGap = false) :
      Judges a number (.gap (number - (last + 1))) (some last) true
  | ahead {last : UInt64} (h : a.last = some last) (hnext : number ≠ last + 1)
      (hlt : last < number) (hgap : a.inGap = true) : Judges a number .ahead (some last) true
  | duplicate {last : UInt64} (h : a.last = some last) (hnext : number ≠ last + 1)
      (hle : number ≤ last) : Judges a number .duplicate (some last) a.inGap

variable {a : Arbiter} {feed : Nat} {number : UInt64}

theorem judges_observe (a : Arbiter) (feed : Nat) (number : UInt64) :
    Judges a number (a.observe feed number).1 (a.observe feed number).2.last
      (a.observe feed number).2.inGap := by
  unfold observe
  cases hlast : a.last with
  | none => exact .first hlast
  | some last =>
    dsimp only
    split
    · next hnext => exact .next hlast hnext
    · next hnext =>
      split
      · next hlt =>
        split
        · next hgap =>
          simp only [hgap]
          exact .ahead hlast hnext hlt hgap
        · next hgap => exact .gap hlast hnext hlt (by simpa using hgap)
      · next hlt =>
        exact .duplicate hlast hnext (UInt64.not_lt.1 hlt)

@[simp] theorem received_observe (a : Arbiter) (feed : Nat) (number : UInt64) :
    (a.observe feed number).2.received = a.received.set feed (some number) := by
  unfold observe
  cases a.last with
  | none => rfl
  | some last =>
    dsimp only
    split
    · rfl
    · split
      · split <;> rfl
      · rfl

/-- A number is taken just if nothing was before it, or the one that it follows. -/
theorem isAccepted_observe :
    (a.observe feed number).1.isAccepted = true ↔ ∀ last ∈ a.last, number = last + 1 := by
  have h := a.judges_observe feed number
  generalize (a.observe feed number).1 = verdict at h ⊢
  generalize (a.observe feed number).2.last = last', (a.observe feed number).2.inGap = inGap' at h
  cases h with
  | first h => simp [h, Verdict.isAccepted]
  | next h hnext => simp [h, hnext, Verdict.isAccepted]
  | gap h hnext => simp [h, hnext, Verdict.isAccepted]
  | ahead h hnext => simp [h, hnext, Verdict.isAccepted]
  | duplicate h hnext => simp [h, hnext, Verdict.isAccepted]

theorem last_observe :
    (a.observe feed number).2.last =
      if (a.observe feed number).1.isAccepted then some number else a.last := by
  have h := a.judges_observe feed number
  generalize (a.observe feed number).1 = verdict at h ⊢
  generalize (a.observe feed number).2.last = last' at h ⊢
  generalize (a.observe feed number).2.inGap = inGap' at h
  cases h with
  | first => rfl
  | next => rfl
  | gap h => exact h.symm
  | ahead h => exact h.symm
  | duplicate h => exact h.symm

theorem eq_of_not_isAccepted {v : Verdict} (h : v.isAccepted = false) :
    v = .duplicate ∨ v = .ahead ∨ ∃ missing, v = .gap missing := by
  cases v with
  | first => cases h
  | next => cases h
  | duplicate => exact .inl rfl
  | ahead => exact .inr (.inl rfl)
  | gap missing => exact .inr (.inr ⟨missing, rfl⟩)

theorem last_observe_of_accepted (h : (a.observe feed number).1.isAccepted = true) :
    (a.observe feed number).2.last = some number := by
  rw [last_observe, h]
  rfl

theorem last_observe_of_rejected (h : (a.observe feed number).1.isAccepted = false) :
    (a.observe feed number).2.last = a.last := by
  rw [last_observe, h]
  rfl

/-- Two arbiters that took the same number last take the same number next. -/
theorem isAccepted_observe_congr {a b : Arbiter} (h : a.last = b.last) (feed : Nat)
    (number : UInt64) :
    (a.observe feed number).1.isAccepted = (b.observe feed number).1.isAccepted := by
  rw [Bool.eq_iff_iff, isAccepted_observe, isAccepted_observe, h]

/-! ## Runs -/

/-- A call to an arbiter. -/
inductive Call where
  | observe (feed : Nat) (number : UInt64)
  | reset
deriving DecidableEq, Repr

/-- A number as it was observed, with what was made of it. -/
structure Sighting where
  feed : Nat
  number : UInt64
  verdict : Verdict
deriving DecidableEq, Repr

/-- A call to an arbiter that has observed `past` since its last reset. -/
def step : Arbiter × List Sighting → Call → Arbiter × List Sighting
  | (a, past), .observe feed number =>
    ((a.observe feed number).2, past ++ [⟨feed, number, (a.observe feed number).1⟩])
  | (a, _), .reset => (a.reset, [])

/-- An arbiter of so many feeds after these calls, and what it has observed since the last reset. -/
def trace (feeds : Nat) (calls : List Call) : Arbiter × List Sighting :=
  calls.foldl step (.create feeds, [])

/-- The arbiter after these calls. -/
def run (feeds : Nat) (calls : List Call) : Arbiter := (trace feeds calls).1

/-- What has been observed since the last reset, in order. -/
def log (feeds : Nat) (calls : List Call) : List Sighting := (trace feeds calls).2

/-- The numbers that have been taken since the last reset, in order. -/
def taken (feeds : Nat) (calls : List Call) : List UInt64 :=
  ((log feeds calls).filter (·.verdict.isAccepted)).map Sighting.number

variable {feeds : Nat} {calls : List Call}

@[simp] theorem run_nil : run feeds [] = .create feeds := rfl

@[simp] theorem log_nil : log feeds [] = [] := rfl

theorem trace_append (c : Call) :
    trace feeds (calls ++ [c]) = step (run feeds calls, log feeds calls) c := by
  simp only [trace, List.foldl_append, List.foldl_cons, List.foldl_nil, run, log]

@[simp] theorem run_observe (feed : Nat) (number : UInt64) :
    run feeds (calls ++ [.observe feed number]) = ((run feeds calls).observe feed number).2 := by
  rw [run, trace_append, step]

@[simp] theorem run_reset : run feeds (calls ++ [.reset]) = (run feeds calls).reset := by
  rw [run, trace_append, step]

@[simp] theorem log_observe (feed : Nat) (number : UInt64) :
    log feeds (calls ++ [.observe feed number]) =
      log feeds calls ++ [⟨feed, number, ((run feeds calls).observe feed number).1⟩] := by
  rw [log, trace_append, step]

@[simp] theorem log_reset : log feeds (calls ++ [.reset]) = [] := by
  rw [log, trace_append, step]

/-- Whatever is called, there are as many feeds as there were. -/
theorem length_received_run : (run feeds calls).received.length = feeds := by
  induction calls using List.reverseRecOn with
  | nil => simp [create]
  | append_singleton calls c ih =>
    cases c with
    | observe feed number => simpa using ih
    | reset => simpa [reset] using ih

/-! ## The numbers taken -/

theorem taken_observe (feed : Nat) (number : UInt64) :
    taken feeds (calls ++ [.observe feed number]) =
      taken feeds calls ++
        if ((run feeds calls).observe feed number).1.isAccepted then [number] else [] := by
  simp only [taken, log_observe, List.filter_append, List.map_append]
  congr 1
  simp only [List.filter_cons, List.filter_nil]
  split <;> rfl

theorem taken_reset : taken feeds (calls ++ [.reset]) = [] := by
  rw [taken, log_reset]
  rfl

theorem last_run : (run feeds calls).last = (taken feeds calls).getLast? := by
  induction calls using List.reverseRecOn with
  | nil => rfl
  | append_singleton calls c ih =>
    cases c with
    | observe feed number =>
      rw [run_observe, last_observe, taken_observe]
      split
      · rw [List.getLast?_concat]
      · rw [List.append_nil, ih]
    | reset =>
      rw [run_reset, taken_reset]
      rfl

/-- Each number taken is one more than the one before it. -/
theorem taken_succ :
    ∀ i n m, (taken feeds calls)[i]? = some n → (taken feeds calls)[i + 1]? = some m →
      m = n + 1 := by
  induction calls using List.reverseRecOn with
  | nil => simp [taken]
  | append_singleton calls c ih =>
    cases c with
    | reset => simp [taken_reset]
    | observe feed number =>
      rw [taken_observe]
      split
      · next haccepted =>
        intro i n m hn hm
        rcases Nat.lt_trichotomy (i + 1) (taken feeds calls).length with hlt | heq | hgt
        · rw [List.getElem?_append_left hlt] at hm
          rw [List.getElem?_append_left (by omega)] at hn
          exact ih i n m hn hm
        · -- The new number follows the last one.
          rw [List.getElem?_append_right (by omega), heq, Nat.sub_self] at hm
          obtain rfl := Option.some.inj hm
          have hlast : (run feeds calls).last = some n := by
            rw [last_run, List.getLast?_eq_getElem?, ← heq, Nat.add_sub_cancel, ← hn,
              List.getElem?_append_left (by omega)]
          exact isAccepted_observe.1 haccepted n hlast
        · rw [List.getElem?_eq_none (by simp; omega)] at hm
          cases hm
      · rwa [List.append_nil]

theorem taken_eq_add {s : UInt64} (hs : (taken feeds calls)[0]? = some s) {i : Nat} {n : UInt64}
    (hn : (taken feeds calls)[i]? = some n) : n = s + .ofNat i := by
  induction i generalizing n with
  | zero =>
    rw [hs] at hn
    simp [Option.some.inj hn]
  | succ i ih =>
    obtain ⟨hlt, -⟩ := List.getElem?_eq_some_iff.1 hn
    have hi : (taken feeds calls)[i]? = some (taken feeds calls)[i] :=
      List.getElem?_eq_getElem (by omega)
    rw [taken_succ i _ n hi hn, ih hi, UInt64.ofNat_add, ← UInt64.add_assoc]
    rfl

theorem taken_ne {i j : Nat} (hij : i < j) (hwrap : j < i + UInt64.size) {n m : UInt64}
    (hn : (taken feeds calls)[i]? = some n) (hm : (taken feeds calls)[j]? = some m) : n ≠ m := by
  obtain ⟨hlt, -⟩ := List.getElem?_eq_some_iff.1 hn
  obtain ⟨s, hs⟩ : ∃ s, (taken feeds calls)[0]? = some s :=
    ⟨_, List.getElem?_eq_getElem (by omega)⟩
  rw [taken_eq_add hs hn, taken_eq_add hs hm]
  intro heq
  have heq := congrArg UInt64.toNat ((UInt64.add_right_inj s).1 heq)
  simp only [UInt64.toNat_ofNat'] at heq
  simp only [UInt64.size] at hwrap
  omega

/--
Whatever is observed, the numbers taken since the last reset are `s`, `s + 1`, `s + 2` and so on,
none of them twice before the numbers wrap, and the latest of them is the last one taken. A number
is taken next just if it is the first or follows the last one; any other is a duplicate or ahead and
changes neither what was taken last nor what will be taken next. Between two resets the same holds,
since the calls up to the second one are a run as well.
-/
theorem gapless (feeds : Nat) (calls : List Call) :
    (∃ s : UInt64, ∀ i n, (taken feeds calls)[i]? = some n → n = s + .ofNat i) ∧
    (∀ i j, i < j → j < i + UInt64.size → ∀ n m, (taken feeds calls)[i]? = some n →
      (taken feeds calls)[j]? = some m → n ≠ m) ∧
    (run feeds calls).last = (taken feeds calls).getLast? ∧
    ∀ feed number verdict a, (run feeds calls).observe feed number = (verdict, a) →
      (verdict.isAccepted = true ↔ ∀ last ∈ (run feeds calls).last, number = last + 1) ∧
      (verdict.isAccepted = false →
        (verdict = .duplicate ∨ verdict = .ahead ∨ ∃ missing, verdict = .gap missing) ∧
        a.last = (run feeds calls).last ∧
        ∀ feed' number', (a.observe feed' number').1.isAccepted =
          ((run feeds calls).observe feed' number').1.isAccepted) := by
  refine ⟨?_, fun i j hij hwrap n m hn hm => taken_ne hij hwrap hn hm, last_run, ?_⟩
  · cases hs : (taken feeds calls)[0]? with
    | some s => exact ⟨s, fun i n hn => taken_eq_add hs hn⟩
    | none =>
      refine ⟨0, fun i n hn => ?_⟩
      rw [List.getElem?_eq_none_iff] at hs
      rw [List.getElem?_eq_none (by omega)] at hn
      cases hn
  · intro feed number verdict a hobserve
    obtain ⟨rfl, rfl⟩ := Prod.mk.inj hobserve
    refine ⟨isAccepted_observe, fun hrejected => ?_⟩
    have hlast := last_observe_of_rejected hrejected
    exact ⟨eq_of_not_isAccepted hrejected, hlast, isAccepted_observe_congr hlast⟩

/-- What one feed has lost, the other one brings. -/
example :
    let calls : List Call := [.observe 0 1, .observe 1 1, .observe 0 3, .observe 1 2, .observe 1 3]
    taken 2 calls = [1, 2, 3] ∧ (log 2 calls).map Sighting.verdict =
      [.first, .duplicate, .gap 1, .next, .next] := by decide

end Arbiter

end MarketFeed
