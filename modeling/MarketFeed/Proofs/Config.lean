import MarketFeed.Config.Basic
import MarketFeed.Proofs.Field.Value

/-!
# Accepted configurations

A configuration is accepted if it has feeds of both kinds and books, no more of them than there may
be, none of which takes the name of another, and if each of these can be what it is configured to be
(`Config.validate_eq_ok_iff`).
-/

namespace MarketFeed

/-- Only datagrams have a preamble. -/
def FeedConfig.Fits (f : FeedConfig) : Prop := 0 < f.preambleBytes → f.transport.isMulticast = true

namespace BookConfig

/-- The depth and the tick are ones that a book can have. -/
structure Fits (b : BookConfig) : Prop where
  depth_pos : 0 < b.depth
  depth_le : b.depth ≤ Book.maxDepth
  tick_pos : 0 < b.tick.mantissa
  tick_exponent : b.tick.hasValidExponent = true

/-- Neither the id nor the symbol of one book is that of the other. -/
structure Apart (b c : BookConfig) : Prop where
  id : b.securityId ≠ c.securityId
  symbol : b.symbol ≠ c.symbol

end BookConfig

namespace Config

variable {c : Config}

/-- What is asked of a configuration. -/
structure Valid (c : Config) : Prop where
  someFeed : ∀ kind, 0 < (c.feedsOf kind).length
  feedCount : ∀ kind, (c.feedsOf kind).length ≤ maxFeeds
  feedNames : (c.feeds.map FeedConfig.name).Nodup
  feeds : ∀ f ∈ c.feeds, f.Fits
  someBook : 0 < c.books.length
  bookCount : c.books.length ≤ maxBooks
  bookNames : c.books.Pairwise BookConfig.Apart
  books : ∀ b ∈ c.books, b.Fits

/-! ## What each check decides -/

theorem checkFeedCount_eq_ok_iff {kind : FeedKind} :
    c.checkFeedCount kind = .ok () ↔
      0 < (c.feedsOf kind).length ∧ (c.feedsOf kind).length ≤ maxFeeds := by
  unfold checkFeedCount
  dsimp only
  split
  · next hnone => simp [hnone]
  · split
    · next hmany => simp [Nat.not_le.2 hmany]
    · next hsome hfew => simp [Nat.pos_of_ne_zero hsome, Nat.not_lt.1 hfew]

/-- The first feed is checked, and then the others with its name among those before them. -/
theorem checkFeeds_cons_eq_ok_iff {seen : List String} {f : FeedConfig} {feeds : List FeedConfig} :
    checkFeeds seen (f :: feeds) = .ok () ↔
      f.name ∉ seen ∧ f.Fits ∧ checkFeeds (f.name :: seen) feeds = .ok () := by
  rw [checkFeeds]
  split
  · next hseen =>
    have hmem : f.name ∈ seen := by simpa using hseen
    exact ⟨nofun, fun h => absurd hmem h.1⟩
  · next hseen =>
    have hmem : f.name ∉ seen := by simpa using hseen
    split
    · next huseless =>
      refine ⟨nofun, fun h => ?_⟩
      simp only [Bool.and_eq_true, decide_eq_true_eq, Bool.not_eq_true'] at huseless
      exact absurd (huseless.2.symm.trans (h.2.1 huseless.1)) Bool.false_ne_true
    · next hfits =>
      have hfits : f.Fits := fun hpos => by simpa [hpos] using hfits
      exact ⟨fun h => ⟨hmem, hfits, h⟩, fun h => h.2.2⟩

theorem checkFeeds_eq_ok_iff {seen : List String} {feeds : List FeedConfig} :
    checkFeeds seen feeds = .ok () ↔
      (feeds.map FeedConfig.name).Nodup ∧ ∀ f ∈ feeds, f.name ∉ seen ∧ f.Fits := by
  induction feeds generalizing seen with
  | nil => simp [checkFeeds]
  | cons f feeds ih =>
    rw [checkFeeds_cons_eq_ok_iff, ih, List.map_cons, List.nodup_cons, List.forall_mem_cons,
      List.mem_map]
    constructor
    · rintro ⟨hseen, hfits, hnodup, hall⟩
      refine ⟨⟨?_, hnodup⟩, ⟨hseen, hfits⟩, fun g hg => ?_⟩
      · rintro ⟨g, hg, hname⟩
        exact (hall g hg).1 (hname ▸ List.mem_cons_self)
      · exact ⟨fun hmem => (hall g hg).1 (List.mem_cons_of_mem _ hmem), (hall g hg).2⟩
    · rintro ⟨⟨hname, hnodup⟩, ⟨hseen, hfits⟩, hall⟩
      refine ⟨hseen, hfits, hnodup, fun g hg => ⟨fun hmem => ?_, (hall g hg).2⟩⟩
      rcases List.mem_cons.1 hmem with heq | hmem
      · exact hname ⟨g, hg, heq⟩
      · exact (hall g hg).1 hmem

theorem checkBook_eq_ok_iff {b : BookConfig} : checkBook b = .ok () ↔ b.Fits := by
  unfold checkBook
  split
  · next hdepth =>
    refine ⟨nofun, fun h => ?_⟩
    have := h.depth_pos
    have := h.depth_le
    omega
  · next hdepth =>
    split
    · next htick =>
      refine ⟨nofun, fun h => ?_⟩
      rw [Bool.or_eq_true, decide_eq_true_eq, h.tick_exponent] at htick
      exact (Int64.not_lt.2 (htick.resolve_right Bool.false_ne_true) h.tick_pos).elim
    · next htick =>
      rw [Bool.or_eq_true, decide_eq_true_eq, not_or, Int64.not_le, Bool.not_eq_true,
        Bool.not_eq_false'] at htick
      exact ⟨fun _ => ⟨by omega, by omega, htick.1, htick.2⟩, fun _ => rfl⟩

theorem checkBooks_cons_eq_ok_iff {seen books : List BookConfig} {b : BookConfig} :
    checkBooks seen (b :: books) = .ok () ↔
      (∀ s ∈ seen, s.Apart b) ∧ b.Fits ∧ checkBooks (b :: seen) books = .ok () := by
  have hseen : (seen.any fun s => s.securityId == b.securityId || s.symbol == b.symbol) = true ↔
      ¬ ∀ s ∈ seen, s.Apart b := by
    rw [List.any_eq_true]
    constructor
    · rintro ⟨s, hs, hsame⟩ hall
      rw [Bool.or_eq_true, beq_iff_eq, beq_iff_eq] at hsame
      exact hsame.elim (hall s hs).id (hall s hs).symbol
    · intro hsame
      simp only [Classical.not_forall] at hsame
      obtain ⟨s, hs, hsame⟩ := hsame
      refine ⟨s, hs, ?_⟩
      rw [Bool.or_eq_true, beq_iff_eq, beq_iff_eq]
      exact Classical.byContradiction fun hnot => hsame ⟨mt .inl hnot, mt .inr hnot⟩
  rw [checkBooks]
  split
  · next hdup => exact ⟨nofun, fun h => absurd h.1 (hseen.1 hdup)⟩
  · next hnew =>
    have hapart := Classical.not_not.1 (mt hseen.2 hnew)
    constructor
    · intro h
      obtain ⟨⟨⟩, hbook, h⟩ := Except.bind_eq_ok h
      exact ⟨hapart, checkBook_eq_ok_iff.1 hbook, h⟩
    · rintro ⟨-, hfits, h⟩
      rw [checkBook_eq_ok_iff.2 hfits]
      exact h

theorem checkBooks_eq_ok_iff {seen books : List BookConfig} :
    checkBooks seen books = .ok () ↔
      books.Pairwise BookConfig.Apart ∧ ∀ b ∈ books, (∀ s ∈ seen, s.Apart b) ∧ b.Fits := by
  induction books generalizing seen with
  | nil => simp [checkBooks]
  | cons b books ih =>
    rw [checkBooks_cons_eq_ok_iff, ih, List.pairwise_cons, List.forall_mem_cons]
    constructor
    · rintro ⟨hseen, hfits, hpairs, hall⟩
      exact ⟨⟨fun c hc => (hall c hc).1 b List.mem_cons_self, hpairs⟩, ⟨hseen, hfits⟩,
        fun c hc => ⟨fun s hs => (hall c hc).1 s (List.mem_cons_of_mem _ hs), (hall c hc).2⟩⟩
    · rintro ⟨⟨hfirst, hpairs⟩, ⟨hseen, hfits⟩, hall⟩
      refine ⟨hseen, hfits, hpairs, fun c hc => ⟨fun s hs => ?_, (hall c hc).2⟩⟩
      rcases List.mem_cons.1 hs with rfl | hs
      · exact hfirst c hc
      · exact (hall c hc).1 s hs

/-- A check passes if its first part does and then the others do. -/
theorem bind_eq_ok_iff {ε : Type} {x : Except ε Unit} {f : Unit → Except ε Unit} :
    (x >>= f) = .ok () ↔ x = .ok () ∧ f () = .ok () := by
  cases x with
  | error e => exact ⟨nofun, nofun⟩
  | ok _ => exact ⟨fun h => ⟨rfl, h⟩, fun h => h.2⟩

theorem findFault_eq_ok_iff :
    c.findFault = .ok () ↔
      (∀ kind, c.checkFeedCount kind = .ok ()) ∧ checkFeeds [] c.feeds = .ok () ∧
        0 < c.books.length ∧ c.books.length ≤ maxBooks ∧ checkBooks [] c.books = .ok () := by
  unfold findFault
  simp only [bind_eq_ok_iff]
  constructor
  · rintro ⟨hincrement, hsnapshot, hfeeds, h⟩
    refine ⟨fun kind => by cases kind <;> assumption, hfeeds, ?_⟩
    split at h
    · cases h
    · next hsome =>
      split at h
      · cases h
      · next hfew =>
        rw [List.isEmpty_iff] at hsome
        exact ⟨List.length_pos_iff.2 hsome, Nat.le_of_not_lt hfew, h⟩
  · rintro ⟨hfeedCount, hfeeds, hsome, hfew, h⟩
    have hne : c.books.isEmpty = false := by
      rw [List.isEmpty_eq_false_iff]
      exact List.ne_nil_of_length_pos hsome
    refine ⟨hfeedCount _, hfeedCount _, hfeeds, ?_⟩
    rw [hne, if_neg Bool.false_ne_true, if_neg (Nat.not_lt.2 hfew)]
    exact h

/-- The configurations that are accepted are the valid ones. -/
theorem validate_eq_ok_iff : c.validate = .ok () ↔ c.Valid := by
  have hfault : c.validate = .ok () ↔ c.findFault = .ok () := by
    unfold validate
    split
    · next h => exact ⟨fun _ => h, fun _ => rfl⟩
    · next h => exact ⟨nofun, fun h' => nomatch h.symm.trans h'⟩
  simp only [hfault, findFault_eq_ok_iff, checkFeedCount_eq_ok_iff, checkFeeds_eq_ok_iff,
    checkBooks_eq_ok_iff]
  constructor
  · rintro ⟨hcount, ⟨hnames, hfeeds⟩, hsome, hfew, hpairs, hbooks⟩
    exact ⟨fun kind => (hcount kind).1, fun kind => (hcount kind).2, hnames,
      fun f hf => (hfeeds f hf).2, hsome, hfew, hpairs, fun b hb => (hbooks b hb).2⟩
  · intro h
    exact ⟨fun kind => ⟨h.someFeed kind, h.feedCount kind⟩,
      ⟨h.feedNames, fun f hf => ⟨nofun, h.feeds f hf⟩⟩, h.someBook, h.bookCount, h.bookNames,
      fun b hb => ⟨nofun, h.books b hb⟩⟩

end Config

end MarketFeed
