import MarketFeed.BookSet.Index
import MarketFeed.Proofs.BookSet.Moves
import MarketFeed.Proofs.BookSet.Skips
import MarketFeed.Proofs.Config

/-!
# Books are found by their own names

In a configuration that is accepted no book has the id or the symbol of another, and there are no
more books than bits in a word. So the tables of a book set have a place for each of them, a mask has
a bit for each, and what is looked up there is what a search through the books would find. The books
keep their terms whatever is asked of the book set, so this stays true (`BookSet.index_faithful`).
-/

namespace MarketFeed

theorem utf8Bytes_inj {s t : String} : utf8Bytes s = utf8Bytes t ↔ s = t := by
  refine ⟨fun h => ?_, congrArg utf8Bytes⟩
  exact String.toByteArray_inj.1 (ByteArray.ext (Array.toList_inj.1 h))

/-! ## Tables -/

/-- The table gives every key its place in the list, and no other keys. -/
def Places {κ : Type} [BEq κ] [Hashable κ] (table : Std.HashMap κ Nat) (keys : List κ) : Prop :=
  ∀ (k : κ) (i : Nat), table[k]? = some i ↔ keys[i]? = some k

namespace Places

variable {κ : Type} [BEq κ] [Hashable κ] {table : Std.HashMap κ Nat} {keys : List κ}

theorem nil : Places (∅ : Std.HashMap κ Nat) [] := by
  intro k i
  rw [Std.HashMap.getElem?_empty, List.getElem?_nil]
  exact ⟨nofun, nofun⟩

variable [LawfulBEq κ]

/-- A key that is new takes no other's place. -/
theorem insert (h : Places table keys) {key : κ} (hnew : key ∉ keys) :
    Places (table.insert key keys.length) (keys ++ [key]) := by
  intro k i
  rw [Std.HashMap.getElem?_insert, List.getElem?_append]
  by_cases hk : key = k
  · subst hk
    rw [if_pos (beq_self_eq_true key)]
    split
    · next hi =>
      constructor
      · rintro heq
        obtain rfl := Option.some.inj heq
        exact absurd hi (Nat.lt_irrefl _)
      · exact fun hmem => absurd (List.mem_of_getElem? hmem) hnew
    · next hi =>
      rw [List.getElem?_singleton]
      grind
  · rw [if_neg (by simpa using hk), h k i]
    split
    · rfl
    · next hi =>
      rw [List.getElem?_eq_none (Nat.le_of_not_lt hi), List.getElem?_singleton]
      grind

/-- The table finds what a search through the list finds. -/
theorem getElem?_eq (h : Places table keys) (k : κ) : table[k]? = keys.findIdx? (· == k) := by
  refine Option.ext fun i => ?_
  rw [h k i, List.findIdx?_eq_some_iff_getElem]
  constructor
  · intro hi
    obtain ⟨hlt, hkey⟩ := List.getElem?_eq_some_iff.1 hi
    refine ⟨hlt, beq_iff_eq.2 hkey, fun j hji hj => ?_⟩
    have hj : keys[j]? = some k := by
      rw [List.getElem?_eq_getElem (hji.trans hlt), beq_iff_eq.1 hj]
    have hsame := ((h k j).2 hj).symm.trans ((h k i).2 hi)
    exact absurd (Option.some.inj hsame) (Nat.ne_of_lt hji)
  · rintro ⟨hlt, hkey, -⟩
    rw [List.getElem?_eq_getElem hlt, beq_iff_eq.1 hkey]

end Places

namespace BookIndex

variable {index : BookIndex} {configs : List BookConfig}

/-- The index gives every book its place in the list. -/
structure Lists (index : BookIndex) (configs : List BookConfig) : Prop where
  byId : Places index.byId (configs.map BookConfig.securityId)
  bySymbol : Places index.bySymbol (configs.map fun c => utf8Bytes c.symbol)

theorem lists_empty : Lists {} [] := ⟨.nil, .nil⟩

theorem Lists.enter (h : index.Lists configs) {c : BookConfig}
    (hnew : ∀ d ∈ configs, d.Apart c) :
    (index.enter c configs.length).Lists (configs ++ [c]) where
  byId := by
    have hid : c.securityId ∉ configs.map BookConfig.securityId := by
      rintro hmem
      obtain ⟨d, hd, hsame⟩ := List.mem_map.1 hmem
      exact (hnew d hd).id hsame
    have hinsert := h.byId.insert hid
    rwa [List.length_map, ← List.map_singleton, ← List.map_append] at hinsert
  bySymbol := by
    have hsymbol : utf8Bytes c.symbol ∉ configs.map fun c => utf8Bytes c.symbol := by
      rintro hmem
      obtain ⟨d, hd, hsame⟩ := List.mem_map.1 hmem
      exact (hnew d hd).symbol (utf8Bytes_inj.1 hsame)
    have hinsert := h.bySymbol.insert hsymbol
    rwa [List.length_map, ← List.map_singleton (f := fun c => utf8Bytes (BookConfig.symbol c)),
      ← List.map_append] at hinsert

/-- Books that are apart are all listed, none of them in the place of another. -/
theorem lists_ofConfigs (h : configs.Pairwise BookConfig.Apart) :
    (ofConfigs configs).Lists configs := by
  induction configs using List.reverseRecOn with
  | nil => exact lists_empty
  | append_singleton configs c ih =>
    obtain ⟨hpairs, -, hnew⟩ := List.pairwise_append.1 h
    rw [ofConfigs, List.zipIdx_append, List.foldl_append, Nat.zero_add]
    exact (ih hpairs).enter fun d hd => hnew d hd c List.mem_cons_self

/-- Found by its id is the book that has it, and found by its symbol the one that has that. -/
structure Finds (index : BookIndex) (configs : List BookConfig) : Prop where
  byId : ∀ id symbol i, index.find? (some id) symbol = some i ↔
    ∃ c, configs[i]? = some c ∧ c.securityId = id
  bySymbol : ∀ symbol i, index.find? none (some symbol) = some i ↔
    ∃ c, configs[i]? = some c ∧ utf8Bytes c.symbol = symbol

theorem Lists.finds (h : index.Lists configs) : index.Finds configs where
  byId id symbol i := by
    have hid := h.byId id i
    rwa [List.getElem?_map, Option.map_eq_some_iff] at hid
  bySymbol symbol i := by
    have hsymbol := h.bySymbol symbol i
    rwa [List.getElem?_map, Option.map_eq_some_iff] at hsymbol

/-- Books that are searched through are found in the same places. -/
theorem Lists.find?_eq (h : index.Lists configs) (id : Option UInt64)
    (symbol : Option (List UInt8)) :
    index.find? id symbol = (Books.ofConfigs configs).find? id symbol := by
  unfold find? Books.find? Books.byId? Books.bySymbol? Books.ofConfigs
  cases id with
  | some id =>
    dsimp only
    rw [h.byId.getElem?_eq, List.findIdx?_map, List.findIdx?_map]
    rfl
  | none =>
    cases symbol with
    | none => rfl
    | some symbol =>
      simp only [Option.bind_some]
      rw [h.bySymbol.getElem?_eq, List.findIdx?_map, List.findIdx?_map]
      rfl

end BookIndex

/-! ## Masks -/

theorem toNat_bookBit {i : Nat} (hi : i < 64) : (bookBit i).toNat = 2 ^ i := by
  have hlt : (2 : Nat) ^ i < 2 ^ 64 := Nat.pow_lt_pow_right (by decide) hi
  rw [bookBit, UInt64.toNat_shiftLeft, UInt64.toNat_ofNat', UInt64.toNat_one]
  rw [Nat.mod_mod_of_dvd _ (by decide), Nat.mod_eq_of_lt hi, Nat.one_shiftLeft, Nat.mod_eq_of_lt hlt]

theorem testBit_bookMask {books : List Nat} (h : ∀ j ∈ books, j < 64) (i : Nat) :
    (bookMask books).toNat.testBit i = decide (i ∈ books) := by
  induction books using List.reverseRecOn with
  | nil => simp [bookMask]
  | append_singleton books j ih =>
    have hmask : bookMask (books ++ [j]) = bookMask books ||| bookBit j := by
      rw [bookMask, List.foldl_append]
      rfl
    rw [hmask, UInt64.toNat_or, Nat.testBit_or, toNat_bookBit (h j (by simp)), Nat.testBit_two_pow,
      ih fun k hk => h k (List.mem_append_left _ hk)]
    grind

/-- So many books have a bit each of a word, and a mask tells which of them it is of. -/
structure Masks (count : Nat) : Prop where
  bit : ∀ i < count, (bookBit i).toNat = 2 ^ i
  apart : ∀ i < count, ∀ j < count, i ≠ j → bookBit i &&& bookBit j = 0
  mem_iff : ∀ books, (∀ j ∈ books, j < count) → ∀ i < count,
    (bookMask books &&& bookBit i ≠ 0 ↔ i ∈ books)

theorem bookMask_and_bookBit {books : List Nat} (h : ∀ j ∈ books, j < 64) {i : Nat} (hi : i < 64) :
    bookMask books &&& bookBit i = if i ∈ books then bookBit i else 0 := by
  refine UInt64.toNat_inj.1 (Nat.eq_of_testBit_eq fun k => ?_)
  rw [UInt64.toNat_and, Nat.testBit_and, testBit_bookMask h, apply_ite UInt64.toNat,
    toNat_bookBit hi, Nat.testBit_two_pow]
  by_cases hk : i = k
  · subst hk
    split <;> simp_all
  · split <;> simp [hk]

theorem masks_of_le {count : Nat} (h : count ≤ 64) : Masks count where
  bit i hi := toNat_bookBit (hi.trans_le h)
  apart i hi j hj hne := by
    have hone : bookMask [i] = bookBit i := UInt64.zero_or
    rw [← hone, bookMask_and_bookBit (by simp; omega) (hj.trans_le h),
      if_neg (by simp [hne.symm])]
  mem_iff books hbooks i hi := by
    have hpos : bookBit i ≠ 0 := by
      intro hzero
      have := toNat_bookBit (hi.trans_le h)
      rw [hzero] at this
      exact absurd this.symm (Nat.ne_of_gt (Nat.two_pow_pos i))
    rw [bookMask_and_bookBit (fun j hj => (hbooks j hj).trans_le h) (hi.trans_le h)]
    split
    · next hmem => exact ⟨fun _ => hmem, fun _ => hpos⟩
    · next hmem => exact ⟨fun hne => absurd rfl hne, fun hmem' => absurd hmem' hmem⟩

/-! ## New book sets -/

namespace BookSet

/-- The book set finds books as the index does, and what it finds are the configured books. -/
structure Indexed (set : BookSet) (index : BookIndex) (configs : List BookConfig) : Prop where
  find? : ∀ id symbol, set.books.find? id symbol = index.find? id symbol
  book : ∀ (i : Nat) (c : BookConfig), configs[i]? = some c → ∃ b, set.books.list[i]? = some b ∧
    b.terms = .create c.symbol c.securityId c.tick c.depth c.tradingSession ∧
    set.book? c.securityId = some b ∧ set.bookBySymbol? c.symbol = some b

theorem indexed_of_terms {set : BookSet} {index : BookIndex} {configs : List BookConfig}
    (hlists : index.Lists configs)
    (hterms : set.books.list.map Book.terms = (Books.ofConfigs configs).list.map Book.terms) :
    set.Indexed index configs := by
  have hfind (id : Option UInt64) (symbol : Option (List UInt8)) :
      set.books.find? id symbol = index.find? id symbol := by
    rw [Books.find?_congr hterms, hlists.find?_eq]
  refine ⟨hfind, fun i c hc => ?_⟩
  obtain ⟨b, hb, hbterms⟩ : ∃ b, set.books.list[i]? = some b ∧
      b.terms = .create c.symbol c.securityId c.tick c.depth c.tradingSession := by
    have hbook := congrArg (·[i]?) hterms
    simp only [Books.ofConfigs, List.getElem?_map, hc, Option.map_some] at hbook
    exact Option.map_eq_some_iff.1 hbook
  have hid : set.books.byId? c.securityId = some i :=
    (hfind (some c.securityId) none).trans ((hlists.finds.byId _ _ i).2 ⟨c, hc, rfl⟩)
  have hsymbol : set.books.bySymbol? (utf8Bytes c.symbol) = some i :=
    (hfind none (some (utf8Bytes c.symbol))).trans
      ((hlists.finds.bySymbol _ i).2 ⟨c, hc, rfl⟩)
  refine ⟨b, hb, hbterms, ?_, ?_⟩
  · rw [book?, hid]
    exact hb
  · rw [bookBySymbol?, hsymbol]
    exact hb

/-- Every configured feed is of one of the two kinds. -/
theorem feedsOf_append_perm (config : Config) :
    (config.feedsOf .increment ++ config.feedsOf .snapshot).Perm config.feeds := by
  have hkinds : config.feedsOf .snapshot = config.feeds.filter fun f => !(f.kind == .increment) := by
    refine List.filter_congr fun f _ => ?_
    cases f.kind <;> rfl
  rw [hkinds]
  exact List.filter_append_perm _ _

/--
A configuration that is accepted is taken over as it is. No feed is left out and no book, and each
book is found at its own place by its own id and by its own symbol, by which no other is. Every
place has a bit of its own in a word. Whatever is asked of the book set later, books are found where
they were at first, and are the ones that were configured.
-/
theorem index_faithful (network : Network) {config : Config} {templates : TemplateSet}
    {layouts : Layouts} (hvalid : config.validate = .ok ())
    (hlayouts : Layouts.ofTemplates templates = .ok layouts) :
    let index := BookIndex.ofConfigs (config.books.take Config.maxBooks)
    ∃ set, create network config templates = .ok set ∧
      set.increments.map (·.config) = config.feedsOf .increment ∧
      set.snapshots.map (·.config) = config.feedsOf .snapshot ∧
      ((set.increments ++ set.snapshots).map (·.config)).Perm config.feeds ∧
      set.books = .ofConfigs config.books ∧
      index.Finds config.books ∧ config.books.Pairwise BookConfig.Apart ∧
      Masks config.books.length ∧
      ∀ calls : List Call, (calls.foldl Call.run set).Indexed index config.books := by
  intro index
  have hconfig := Config.validate_eq_ok_iff.1 hvalid
  have hbooks : config.books.take Config.maxBooks = config.books :=
    List.take_of_length_le hconfig.bookCount
  have hfeeds (kind : FeedKind) :
      (newFeeds config templates kind).map (·.config) = config.feedsOf kind := by
    rw [newFeeds, List.take_of_length_le (hconfig.feedCount kind), List.map_map]
    exact List.map_id _
  have hlists : index.Lists config.books := by
    rw [show index = .ofConfigs config.books from congrArg BookIndex.ofConfigs hbooks]
    exact BookIndex.lists_ofConfigs hconfig.bookNames
  obtain ⟨set, hcreate⟩ : ∃ set, create network config templates = .ok set := by
    simp only [create, hvalid, hlayouts, Except.mapError, bind, Except.bind]
    exact ⟨_, rfl⟩
  obtain ⟨_, hset⟩ := create_eq hcreate
  have hincrements : set.increments = newFeeds config templates .increment := by rw [hset]
  have hsnapshots : set.snapshots = newFeeds config templates .snapshot := by rw [hset]
  have hlist : set.books = .ofConfigs config.books := by rw [hset, hbooks]
  refine ⟨set, hcreate, ?_, ?_, ?_, hlist, hlists.finds, hconfig.bookNames,
    masks_of_le hconfig.bookCount, fun calls => ?_⟩
  · rw [hincrements, hfeeds]
  · rw [hsnapshots, hfeeds]
  · rw [List.map_append, hincrements, hsnapshots, hfeeds, hfeeds]
    exact feedsOf_append_perm config
  · exact indexed_of_terms hlists (hlist ▸ set.terms_calls calls)

/-- Two books, of which the second is found by its symbol even when both have been joined. -/
theorem index_faithful_pair :
    let index := BookIndex.ofConfigs (pairConfig.books.take Config.maxBooks)
    pairConfig.validate = .ok () ∧ (Layouts.ofTemplates market).isOk = true ∧
      ∃ set, create pairNetwork pairConfig market = .ok set ∧
        set.increments.length = 1 ∧ set.snapshots.length = 1 ∧
        index.find? (some 5) none = some 0 ∧ index.find? none (some (utf8Bytes "B")) = some 1 ∧
        bookBit 0 &&& bookBit 1 = 0 ∧ (bookMask [1] &&& bookBit 1 ≠ 0 ↔ 1 ∈ [1]) ∧
        ((pairCalls.foldl Call.run set).bookBySymbol? "B").map Book.securityId = some 6 := by
  intro index
  have hvalid : pairConfig.validate = .ok () := by decide
  obtain ⟨layouts, hlayouts⟩ : ∃ layouts, Layouts.ofTemplates market = .ok layouts :=
    ⟨(Layouts.ofTemplates market).toOption.get rfl, rfl⟩
  obtain ⟨set, hcreate, hincrements, hsnapshots, -, -, hfinds, -, hmasks, hindexed⟩ :=
    index_faithful pairNetwork hvalid hlayouts
  obtain ⟨b, -, hterms, -, hbook⟩ := (hindexed pairCalls).book 1 _ rfl
  refine ⟨hvalid, by rw [hlayouts]; rfl, set, hcreate, ?_, ?_, ?_, ?_, ?_, ?_, ?_⟩
  · exact (List.length_map _).symm.trans (congrArg List.length hincrements)
  · exact (List.length_map _).symm.trans (congrArg List.length hsnapshots)
  · exact (hfinds.byId _ _ _).2 ⟨_, rfl, rfl⟩
  · exact (hfinds.bySymbol _ _).2 ⟨_, rfl, rfl⟩
  · exact hmasks.apart 0 (by decide) 1 (by decide) (by decide)
  · exact hmasks.mem_iff [1] (by decide) 1 (by decide)
  · have hsecond : (pairCalls.foldl Call.run set).bookBySymbol? "B" = some b := hbook
    have hid : b.securityId = 6 := congrArg Book.securityId hterms
    rw [hsecond, Option.map_some, hid]

end BookSet

end MarketFeed
