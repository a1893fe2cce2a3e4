import MarketFeed.Proofs.Arbiter.Stalls
import Mathlib.Data.List.Chain

/-!
# One lossless feed is enough

A feed that brings number after number, from at most one past the beginning of the stream on, is
never ahead of what has been taken: whatever the others bring and whenever they do, the arbiter has
taken all that the feed has brought so far (`Lossless.keepsUp`). So it may always be read, no stall
is ever declared, and nothing from the first number up to its latest is missing:
`Lossless.suffices`.
-/

namespace MarketFeed.Arbiter

variable {a : Arbiter} {feeds feed : Nat} {calls : List Call}

/-- The number that a call brings on a feed. -/
def Call.on? (feed : Nat) : Call → Option UInt64
  | .observe source number => if source = feed then some number else none
  | .reset => none

def brought (feed : Nat) (calls : List Call) : List UInt64 := calls.filterMap (Call.on? feed)

@[simp] theorem brought_self (feed : Nat) (number : UInt64) :
    brought feed (calls ++ [.observe feed number]) = brought feed calls ++ [number] := by
  simp [brought, Call.on?]

theorem brought_of_ne {source : Nat} (h : source ≠ feed) (number : UInt64) :
    brought feed (calls ++ [.observe source number]) = brought feed calls := by
  simp [brought, Call.on?, h]

/--
A run without resets in which one feed brings number after number, beginning at most one past the
first number taken, and in which the numbers taken do not wrap. The other feeds may bring anything.
-/
structure Lossless (feeds feed : Nat) (calls : List Call) : Prop where
  isFeed : feed < feeds
  unreset : Call.reset ∉ calls
  consecutive : (brought feed calls).IsChain fun n m => m = n + 1
  begins : ∀ s ∈ (taken feeds calls).head?, ∀ b ∈ (brought feed calls).head?,
    b.toNat ≤ s.toNat + 1
  unwrapped : 0 ∉ (taken feeds calls).tail

/-! ## The numbers taken -/

theorem head?_eq_of_isPrefix {α : Type} {xs ys : List α} (h : xs <+: ys) {x : α}
    (hx : x ∈ xs.head?) : x ∈ ys.head? := by
  obtain ⟨zs, rfl⟩ := h
  cases xs with
  | nil => cases hx
  | cons y xs => exact hx

/-- As long as the numbers do not wrap, the number taken at a place is told by the first one. -/
theorem toNat_taken (hunwrapped : 0 ∉ (taken feeds calls).tail) {s : UInt64}
    (hs : (taken feeds calls)[0]? = some s) {i : Nat} {n : UInt64}
    (hn : (taken feeds calls)[i]? = some n) : n.toNat = s.toNat + i := by
  induction i generalizing n with
  | zero =>
    rw [hs] at hn
    rw [← Option.some.inj hn, Nat.add_zero]
  | succ i ih =>
    obtain ⟨hlt, -⟩ := List.getElem?_eq_some_iff.1 hn
    have hi : (taken feeds calls)[i]? = some (taken feeds calls)[i] :=
      List.getElem?_eq_getElem (by omega)
    have hzero : n ≠ 0 := by
      rintro rfl
      refine hunwrapped (List.mem_of_getElem? (i := i) ?_)
      rw [List.getElem?_tail]
      exact hn
    -- The number taken next is one more, and has not wrapped because it is not zero.
    have hnext := taken_succ i _ n hi hn
    have hprevious := ih hi
    generalize (taken feeds calls)[i] = previous at hnext hprevious
    have hlt := previous.toNat_lt
    subst hnext
    rw [ne_eq, ← UInt64.toNat_inj, UInt64.toNat_add] at hzero
    rw [UInt64.toNat_add]
    simp only [UInt64.toNat_one, UInt64.toNat_zero] at hzero ⊢
    omega

/-- Between the first number taken and the last one, none is missing. -/
theorem mem_taken (hunwrapped : 0 ∉ (taken feeds calls).tail) {s last n : UInt64}
    (hs : s ∈ (taken feeds calls).head?) (hlast : (run feeds calls).last = some last)
    (hsn : s ≤ n) (hn : n ≤ last) : n ∈ taken feeds calls := by
  rw [Option.mem_def, List.head?_eq_getElem?] at hs
  rw [last_run, List.getLast?_eq_getElem?] at hlast
  have hend := toNat_taken hunwrapped hs hlast
  obtain ⟨hlt, -⟩ := List.getElem?_eq_some_iff.1 hlast
  rw [UInt64.le_iff_toNat_le] at hsn hn
  have hi : n.toNat - s.toNat < (taken feeds calls).length := by omega
  have hmiddle := toNat_taken hunwrapped hs (List.getElem?_eq_getElem hi)
  have heq : (taken feeds calls)[n.toNat - s.toNat] = n := UInt64.toNat_inj.1 (by omega)
  exact heq ▸ List.getElem_mem hi

theorem head_le_last (hunwrapped : 0 ∉ (taken feeds calls).tail) {s last : UInt64}
    (hs : s ∈ (taken feeds calls).head?) (hlast : (run feeds calls).last = some last) :
    s ≤ last := by
  rw [Option.mem_def, List.head?_eq_getElem?] at hs
  rw [last_run, List.getLast?_eq_getElem?] at hlast
  rw [UInt64.le_iff_toNat_le, toNat_taken hunwrapped hs hlast]
  exact Nat.le_add_right _ _

/-! ## A step of such a run -/

theorem taken_prefix_observe (source : Nat) (number : UInt64) :
    taken feeds calls <+: taken feeds (calls ++ [.observe source number]) := by
  rw [taken_observe]
  exact List.prefix_append _ _

theorem brought_prefix_observe (source : Nat) (number : UInt64) :
    brought feed calls <+: brought feed (calls ++ [.observe source number]) := by
  by_cases h : source = feed
  · rw [h, brought_self]
    exact List.prefix_append _ _
  · exact (brought_of_ne h number).symm ▸ List.prefix_rfl

theorem tail_prefix_tail {α : Type} {xs ys : List α} (h : xs <+: ys) : xs.tail <+: ys.tail := by
  obtain ⟨zs, rfl⟩ := h
  cases xs with
  | nil => exact List.nil_prefix
  | cons x xs => exact List.prefix_append _ _

theorem unwrapped_of_observe {source : Nat} {number : UInt64}
    (h : 0 ∉ (taken feeds (calls ++ [.observe source number])).tail) :
    0 ∉ (taken feeds calls).tail :=
  fun hmem => h ((tail_prefix_tail (taken_prefix_observe source number)).subset hmem)

/-- As long as the numbers do not wrap, what is taken after the first one is not zero. -/
theorem ne_zero_of_accepted {source : Nat} {number last : UInt64}
    (hunwrapped : 0 ∉ (taken feeds (calls ++ [.observe source number])).tail)
    (hlast : (run feeds calls).last = some last)
    (haccepted : ((run feeds calls).observe source number).1.isAccepted = true) : number ≠ 0 := by
  rintro rfl
  rw [taken_observe, if_pos haccepted] at hunwrapped
  cases hs : taken feeds calls with
  | nil =>
    rw [last_run, hs] at hlast
    cases hlast
  | cons s later => simp [hs] at hunwrapped

theorem Lossless.of_observe {source : Nat} {number : UInt64}
    (h : Lossless feeds feed (calls ++ [.observe source number])) : Lossless feeds feed calls where
  isFeed := h.isFeed
  unreset := fun hmem => h.unreset (List.mem_append_left _ hmem)
  consecutive := h.consecutive.prefix (brought_prefix_observe source number)
  begins := fun s hs b hb =>
    h.begins s (head?_eq_of_isPrefix (taken_prefix_observe source number) hs) b
      (head?_eq_of_isPrefix (brought_prefix_observe source number) hb)
  unwrapped := unwrapped_of_observe h.unwrapped

/-- Whoever looks at such a run before its end sees one, too. -/
theorem Lossless.of_prefix (h : Lossless feeds feed calls) {past : List Call}
    (hpast : past <+: calls) : Lossless feeds feed past := by
  obtain ⟨later, rfl⟩ := hpast
  induction later using List.reverseRecOn with
  | nil => rwa [List.append_nil] at h
  | append_singleton later c ih =>
    rw [← List.append_assoc] at h
    cases c with
    | observe source number => exact ih h.of_observe
    | reset => exact absurd (by simp) h.unreset

/-- The feed's next number comes when it is due, or later. -/
theorem Lossless.number_le {number last : UInt64}
    (h : Lossless feeds feed (calls ++ [.observe feed number]))
    (hlast : (run feeds calls).last = some last)
    (hlatest : ∀ latest ∈ (brought feed calls).getLast?, latest ≤ last) :
    number.toNat ≤ last.toNat + 1 := by
  have hchain := h.consecutive
  rw [brought_self] at hchain
  cases hb : (brought feed calls).getLast? with
  | some latest =>
    obtain rfl := (List.isChain_append.1 hchain).2.2 latest hb number rfl
    have hle := UInt64.le_iff_toNat_le.1 (hlatest latest hb)
    rw [UInt64.toNat_add, UInt64.toNat_one]
    omega
  | none =>
    -- It is the first number that the feed brings.
    have hnil := List.getLast?_eq_none_iff.1 hb
    cases hs : (taken feeds calls).head? with
    | none =>
      rw [last_run, List.head?_eq_none_iff.1 hs] at hlast
      cases hlast
    | some s =>
      have hle := UInt64.le_iff_toNat_le.1 (head_le_last h.of_observe.unwrapped hs hlast)
      have hbegins := h.begins s (head?_eq_of_isPrefix (taken_prefix_observe feed number) hs) number
        (by rw [brought_self, hnil]; rfl)
      omega

/-- What comes when it is due, or later, is not ahead. -/
theorem isAhead_observe {number : UInt64}
    (hnumber : ∀ last ∈ a.last, number.toNat ≤ last.toNat + 1) :
    (a.observe feed number).1.isAhead = false := by
  have hjudges := a.judges_observe feed number
  generalize (a.observe feed number).1 = verdict at hjudges ⊢
  generalize (a.observe feed number).2.last = last', (a.observe feed number).2.inGap = inGap'
    at hjudges
  have hdue {last : UInt64} (hlast : a.last = some last) (hlt : last < number) :
      number = last + 1 := by
    have hle := hnumber last hlast
    rw [← UInt64.toNat_inj, toNat_add_one_of_lt hlt]
    rw [UInt64.lt_iff_toNat_lt] at hlt
    omega
  cases hjudges with
  | first => rfl
  | next => rfl
  | duplicate => rfl
  | gap hlast hnext hlt => exact absurd (hdue hlast hlt) hnext
  | ahead hlast hnext hlt => exact absurd (hdue hlast hlt) hnext

/-- A number that is not ahead is not past the last one taken after it. -/
theorem le_last_of_isAhead {number : UInt64} (h : (a.observe feed number).1.isAhead = false) :
    ∃ last, (a.observe feed number).2.last = some last ∧ number ≤ last := by
  have hjudges := a.judges_observe feed number
  generalize (a.observe feed number).1 = verdict at h hjudges
  generalize (a.observe feed number).2.last = last' at hjudges ⊢
  generalize (a.observe feed number).2.inGap = inGap' at hjudges
  cases hjudges with
  | first => exact ⟨number, rfl, UInt64.le_refl number⟩
  | next => exact ⟨number, rfl, UInt64.le_refl number⟩
  | @duplicate last _ _ hle => exact ⟨last, rfl, hle⟩
  | gap => cases h
  | ahead => cases h

/-! ## Such a run -/

/-- All that the feed has brought was taken, and the arbiter knows the latest of it. -/
structure KeepsUp (feeds feed : Nat) (calls : List Call) : Prop where
  received : (run feeds calls).received[feed]? = some (brought feed calls).getLast?
  passed : ∀ latest ∈ (brought feed calls).getLast?,
    ∃ last, (run feeds calls).last = some last ∧ latest ≤ last

theorem KeepsUp.isAhead {number : UInt64} (h : KeepsUp feeds feed calls)
    (hl : Lossless feeds feed (calls ++ [.observe feed number])) :
    ((run feeds calls).observe feed number).1.isAhead = false := by
  refine isAhead_observe fun last hlast => hl.number_le hlast fun latest hlatest => ?_
  obtain ⟨last', hlast', hle⟩ := h.passed latest hlatest
  rw [Option.mem_def.1 hlast] at hlast'
  rwa [Option.some.inj hlast']

theorem KeepsUp.observe {source : Nat} {number : UInt64} (h : KeepsUp feeds feed calls)
    (hl : Lossless feeds feed (calls ++ [.observe source number])) :
    KeepsUp feeds feed (calls ++ [.observe source number]) := by
  have hlt : feed < (run feeds calls).received.length := by
    rw [length_received_run]
    exact hl.isFeed
  by_cases hsource : source = feed
  · subst hsource
    have hahead := h.isAhead hl
    constructor
    · rw [run_observe, received_observe, List.getElem?_set_self hlt, brought_self,
        List.getLast?_concat]
    · rw [run_observe, brought_self, List.getLast?_concat]
      rintro latest hlatest
      obtain rfl := Option.mem_some.1 hlatest
      exact le_last_of_isAhead hahead
  · constructor
    · rw [run_observe, received_observe, List.getElem?_set_ne hsource, brought_of_ne hsource,
        h.received]
    · rw [run_observe, brought_of_ne hsource]
      intro latest hlatest
      obtain ⟨last, hlast, hle⟩ := h.passed latest hlatest
      have hpositive (haccepted : ((run feeds calls).observe source number).1.isAccepted = true) :
          number ≠ 0 := ne_zero_of_accepted hl.unwrapped hlast haccepted
      obtain ⟨last', hlast', hle'⟩ := le_last_observe hlast hpositive
      exact ⟨last', hlast', UInt64.le_trans hle hle'⟩

theorem Lossless.keepsUp (h : Lossless feeds feed calls) : KeepsUp feeds feed calls := by
  induction calls using List.reverseRecOn with
  | nil =>
    refine ⟨?_, fun latest hlatest => by cases hlatest⟩
    rw [run_nil, create, List.getElem?_replicate, if_pos h.isFeed]
    rfl
  | append_singleton calls c ih =>
    cases c with
    | observe source number => exact (ih h.of_observe).observe h
    | reset => exact absurd (by simp) h.unreset

theorem KeepsUp.shouldPoll (h : KeepsUp feeds feed calls) :
    (run feeds calls).shouldPoll feed = true := by
  by_contra hpoll
  obtain ⟨received, last, hreceived, hlast, hlt⟩ :=
    shouldPoll_eq_false_iff.1 (Bool.eq_false_iff.2 hpoll)
  rw [h.received] at hreceived
  obtain ⟨last', hlast', hle⟩ := h.passed received (Option.some.inj hreceived)
  rw [hlast] at hlast'
  rw [← Option.some.inj hlast'] at hle
  exact UInt64.not_lt.2 hle hlt

/-- A stall would be one of the lossless feed as well. -/
theorem KeepsUp.isStalled (h : KeepsUp feeds feed calls) :
    (run feeds calls).isStalled = false := by
  refine Bool.eq_false_iff.2 fun hstalled => ?_
  obtain ⟨last, hlast, -, hreceived⟩ := isStalled_iff.1 hstalled
  obtain ⟨received, hlatest, hlt⟩ := hreceived _ (List.mem_of_getElem? h.received)
  obtain ⟨last', hlast', hle⟩ := h.passed received hlatest
  rw [hlast] at hlast'
  rw [← Option.some.inj hlast'] at hle
  exact UInt64.not_lt.2 hle hlt

/-- The lossless feed never jumps ahead. -/
theorem Lossless.isAhead_log (h : Lossless feeds feed calls) {t : Sighting}
    (ht : t ∈ log feeds calls) (hfeed : t.feed = feed) : t.verdict.isAhead = false := by
  induction calls using List.reverseRecOn with
  | nil => cases ht
  | append_singleton calls c ih =>
    cases c with
    | reset => exact absurd (by simp) h.unreset
    | observe source number =>
      rw [log_observe] at ht
      rcases List.mem_append.1 ht with ht | ht
      · exact ih h.of_observe ht
      · obtain rfl := List.mem_singleton.1 ht
        obtain rfl : source = feed := hfeed
        exact h.of_observe.keepsUp.isAhead h

theorem eq_of_not_isAhead {v : Verdict} (h : v.isAhead = false) :
    v = .first ∨ v = .next ∨ v = .duplicate := by
  cases v with
  | first => exact .inl rfl
  | next => exact .inr (.inl rfl)
  | duplicate => exact .inr (.inr rfl)
  | gap missing => cases h
  | ahead => cases h

/--
One feed that loses nothing is enough. At every time of the run no stall is declared, the feed may
be read, and every number from the first one taken up to the feed's latest has been taken. None of
its numbers is ever found ahead of the stream.
-/
theorem Lossless.suffices (h : Lossless feeds feed calls) :
    (∀ past, past <+: calls →
      (run feeds past).isStalled = false ∧ (run feeds past).shouldPoll feed = true ∧
        ∀ s ∈ (taken feeds past).head?, ∀ latest ∈ (brought feed past).getLast?,
          ∀ n, s ≤ n → n ≤ latest → n ∈ taken feeds past) ∧
    ∀ t ∈ log feeds calls, t.feed = feed →
      t.verdict = .first ∨ t.verdict = .next ∨ t.verdict = .duplicate := by
  constructor
  · intro past hpast
    have hl := h.of_prefix hpast
    have hk := hl.keepsUp
    refine ⟨hk.isStalled, hk.shouldPoll, fun s hs latest hlatest n hsn hn => ?_⟩
    obtain ⟨last, hlast, hle⟩ := hk.passed latest hlatest
    exact mem_taken hl.unwrapped hs hlast hsn (UInt64.le_trans hn hle)
  · intro t ht hfeed
    exact eq_of_not_isAhead (h.isAhead_log ht hfeed)

/-- The second of three feeds is lossless. The first one jumps and repeats, the third lags behind. -/
def unevenFeeds : List Call := [
  .observe 0 5, .observe 0 9, .observe 1 6, .observe 2 3, .observe 0 9, .observe 1 7,
  .observe 2 40, .observe 0 8, .observe 1 8, .observe 2 1, .observe 1 9]

theorem Lossless.suffices_unevenFeeds :
    Lossless 3 1 unevenFeeds ∧
      (∀ past, past <+: unevenFeeds →
        (run 3 past).isStalled = false ∧ (run 3 past).shouldPoll 1 = true ∧
          ∀ s ∈ (taken 3 past).head?, ∀ latest ∈ (brought 1 past).getLast?,
            ∀ n, s ≤ n → n ≤ latest → n ∈ taken 3 past) ∧
      ∀ t ∈ log 3 unevenFeeds, t.feed = 1 →
        t.verdict = .first ∨ t.verdict = .next ∨ t.verdict = .duplicate := by
  have h : Lossless 3 1 unevenFeeds := by
    refine ⟨by decide, by decide, by decide, ?_, by decide⟩
    rw [show taken 3 unevenFeeds = [5, 6, 7, 8, 9] from by decide,
      show brought 1 unevenFeeds = [6, 7, 8, 9] from by decide]
    rintro s ⟨⟩ b ⟨⟩
    decide
  exact ⟨h, h.suffices⟩

end MarketFeed.Arbiter
