import MarketFeed.Proofs.Group.Relay

/-!
# Reading over what was there

A message is read over the one before it. What the next one depends on is what the fields remember,
never the rows that the groups happen to have: of two messages that differ in their rows only, a
read makes the same, rows included once it is done (`Message.read_tallies`). And whatever is read
into a message, a reset undoes (`Message.keeps_read`).
-/

namespace MarketFeed

/-! ## Reads side by side -/

namespace Progress

variable {α σ τ κ μ : Type} {R S : σ → σ → Prop} {R' S' : τ → τ → Prop}

/-- Two reads end alike. Their states are related by `R`, and by `S` once the reads are done. -/
structure Tallies (R S : σ → σ → Prop) (p q : Progress σ κ) : Prop where
  ending : p.ending = q.ending
  rest : p.rest = q.rest
  state : R p.state q.state
  done : p.ending = .done → S p.state q.state

theorem Tallies.finished {s t : σ} (hR : R s t) (hS : S s t) (rest : List UInt8) :
    Tallies R S (⟨s, .done, rest⟩ : Progress σ κ) ⟨t, .done, rest⟩ :=
  ⟨rfl, rfl, hR, fun _ => hS⟩

theorem Tallies.refused {s t : σ} (hR : R s t) (e : DecodeError) (rest : List UInt8) :
    Tallies R S (⟨s, .garbled e, rest⟩ : Progress σ κ) ⟨t, .garbled e, rest⟩ :=
  ⟨rfl, rfl, hR, fun h => by cases h⟩

theorem Tallies.within {p q : Progress σ κ} (h : Tallies R S p q) {f f' : σ → τ} {g : κ → μ}
    (hR : ∀ s t, R s t → R' (f s) (f' t)) (hS : ∀ s t, S s t → S' (f s) (f' t)) :
    Tallies R' S' (p.within f g) (q.within f' g) where
  ending := congrArg (Ending.mapPlace g) h.ending
  rest := h.rest
  state := hR _ _ h.state
  done hdone := by
    refine hS _ _ (h.done ?_)
    cases hending : p.ending with
    | done => rfl
    | dry place => simp [Progress.within, Ending.mapPlace, hending] at hdone
    | garbled e => simp [Progress.within, Ending.mapPlace, hending] at hdone

theorem Tallies.afterToken {read : Read α} {s t : σ} {k : κ}
    {next next' : α → List UInt8 → Progress σ κ} (hR : R s t) {bytes : List UInt8}
    (hnext : ∀ a rest, read bytes = .done a rest → Tallies R S (next a rest) (next' a rest)) :
    Tallies R S (Progress.afterToken read s k next bytes)
      (Progress.afterToken read t k next' bytes) := by
  simp only [Progress.afterToken]
  cases hread : read bytes with
  | done a rest => exact hnext a rest hread
  | dry => exact ⟨rfl, rfl, hR, fun h => by cases h⟩
  | garbled e rest => exact .refused hR e rest

theorem Tallies.andThen {start start' : List UInt8 → Progress σ κ} {bytes : List UInt8}
    (h : Tallies R S (start bytes) (start' bytes)) {f f' : σ → τ} {g : κ → μ}
    {next next' : σ → List UInt8 → Progress τ μ} (hR : ∀ s t, R s t → R' (f s) (f' t))
    (hnext : ∀ s t rest, start bytes = ⟨s, .done, rest⟩ → S s t →
      Tallies R' S' (next s rest) (next' t rest)) :
    Tallies R' S' (Progress.andThen start f g next bytes)
      (Progress.andThen start' f' g next' bytes) := by
  simp only [Progress.andThen]
  obtain ⟨hending, hrest, hstate, hdone⟩ := h
  rcases hstart : start bytes with ⟨s, ending, rest⟩
  rcases hstart' : start' bytes with ⟨t, ending', rest'⟩
  rw [hstart, hstart'] at hending hrest hstate hdone
  dsimp only at hending hrest hstate hdone
  subst hending hrest
  cases ending with
  | done => exact hnext s t rest hstart (hdone rfl)
  | dry k => exact ⟨rfl, rfl, hR s t hstate, fun h => by cases h⟩
  | garbled e => exact .refused (hR s t hstate) e rest

end Progress

open Progress (Tallies)

theorem Field.reset_of_frame {f f' : Field} (h : f'.frame = f.frame) : f'.reset = f.reset := by
  obtain ⟨hdecl, hbit⟩ := Prod.mk.inj h
  rw [Field.reset, Field.reset, hdecl, hbit]

namespace Group

/-- The group without its rows. -/
def bare (g : Group) : Group := { g with rows := [], spare := [] }

/-- The group without the rows that are kept for later. -/
def shown (g : Group) : Group := { g with spare := [] }

/-! ## Rows over rows -/

/-- Cells are overwritten one by one, so that nothing is left of them at the end. -/
theorem readCells_tallies (map : PresenceMap) (fields : List Field) {row row' : Row}
    (hrow : row.length = fields.length) (hrow' : row'.length = fields.length)
    (bytes : List UInt8) :
    Tallies (fun s t => s.1 = t.1) (· = ·) (readCells map fields row bytes)
      (readCells map fields row' bytes) := by
  induction fields generalizing row row' bytes with
  | nil =>
    obtain rfl := List.eq_nil_of_length_eq_zero hrow
    obtain rfl := List.eq_nil_of_length_eq_zero hrow'
    exact .finished (by rfl) (by rfl) bytes
  | cons f fields ih =>
    obtain ⟨entry, row, rfl⟩ := List.exists_cons_of_length_eq_add_one hrow
    obtain ⟨entry', row', rfl⟩ := List.exists_cons_of_length_eq_add_one hrow'
    rw [readCells_cons, readCells_cons]
    refine .afterToken (by rfl) fun f rest _ => ?_
    refine (ih (by simpa using hrow) (by simpa using hrow') rest).within ?_ ?_
    · exact fun s t h => congrArg (f :: ·) h
    · rintro s _ rfl
      rfl

/-- Rows that are read are overwritten, if there are as many. -/
theorem readRows_tallies (withMap : Bool) (fields : List Field) {rows rows' : List Row}
    (hcount : rows.length = rows'.length) (hrows : ∀ row ∈ rows, row.length = fields.length)
    (hrows' : ∀ row ∈ rows', row.length = fields.length) (bytes : List UInt8) :
    Tallies (fun s t => s.1 = t.1) (· = ·) (readRows withMap fields rows {} bytes)
      (readRows withMap fields rows' {} bytes) := by
  induction rows generalizing rows' fields bytes with
  | nil =>
    obtain rfl := List.eq_nil_of_length_eq_zero hcount.symm
    exact .finished (by rfl) (by rfl) bytes
  | cons row rows ih =>
    obtain ⟨row', rows', rfl⟩ := List.exists_cons_of_length_eq_add_one hcount.symm
    obtain ⟨hrow, hrows⟩ := List.forall_mem_cons.1 hrows
    obtain ⟨hrow', hrows'⟩ := List.forall_mem_cons.1 hrows'
    rw [readRows_cons, readRows_cons]
    refine .afterToken (by rfl) fun map middle _ => ?_
    simp only [readRowsAfterMap, readRow_zero]
    refine (readCells_tallies map fields hrow hrow' middle).andThen (fun s t h => h) ?_
    rintro s _ rest hcells rfl
    -- The row behind meets the dictionary as this one has left it, which is as wide as before.
    have hwidth : s.1.length = fields.length := by
      have hframe := congrArg List.length (frame_readCells map fields row middle)
      rw [hcells] at hframe
      simpa using hframe
    refine (ih s.1 (by simpa using hcount) (fun row h => (hrows row h).trans hwidth.symm)
      (fun row h => (hrows' row h).trans hwidth.symm) rest).within (fun s t h => h) ?_
    rintro s' _ rfl
    rfl

/-! ## Groups over groups -/

theorem readBody_refused {g : Group} {length : Field}
    (h : maxRows < ({ g with length } : Group).transmittedLength.toNat) :
    g.readBody length = fun bytes =>
      ⟨{ g with length },
        .garbled (.sequenceTooLong ({ g with length } : Group).transmittedLength maxRows),
        bytes⟩ := by
  funext bytes
  rw [readBody, if_pos h]

/-- A group is read alike over any rows, and all that it shows then has been read. -/
theorem read_tallies {g g' : Group} (h : g.bare = g'.bare) (hg : g.Rectangular)
    (hg' : g'.Rectangular) (map : PresenceMap) (bytes : List UInt8) :
    Tallies (fun g g' => g.bare = g'.bare) (fun g g' => g.shown = g'.shown)
      (g.read map .length bytes) (g'.read map .length bytes) := by
  obtain ⟨head, length, dictionary, rows, spare⟩ := g
  obtain ⟨head', length', dictionary', rows', spare'⟩ := g'
  obtain ⟨rfl, rfl, rfl, -, -⟩ := Group.mk.inj h
  rw [read_length, read_length]
  refine .afterToken (by rfl) fun length middle _ => ?_
  by_cases hmax : (Group.transmittedLength ⟨head, length, dictionary, rows, spare⟩).toNat ≤ maxRows
  · rw [readBody_eq hmax, readBody_eq hmax]
    refine (readRows_tallies _ dictionary ?_ ?_ ?_ middle).within ?_ ?_
    · rw [length_rows_withLength, length_rows_withLength]
      rfl
    · exact fun row hrow => hg.withLength length row (List.mem_append_left _ hrow)
    · exact fun row hrow => hg'.withLength length row (List.mem_append_left _ hrow)
    · rintro ⟨fields, rows⟩ ⟨-, rows'⟩ rfl
      rfl
    · rintro s _ rfl
      rfl
  · rw [readBody_refused (Nat.not_le.1 hmax), readBody_refused (Nat.not_le.1 hmax)]
    exact .refused (by rfl) _ middle

/-- What reading and resetting keep of a group: its reset, and the width of its rows. -/
structure Keeps (g g' : Group) : Prop where
  reset : g'.reset.bare = g.reset.bare
  rectangular : g.Rectangular → g'.Rectangular

theorem Keeps.trans {g g' g'' : Group} (h : g.Keeps g') (h' : g'.Keeps g'') : g.Keeps g'' :=
  ⟨h'.reset.trans h.reset, fun hg => h'.rectangular (h.rectangular hg)⟩

theorem keeps_of_frame {g g' : Group} (hhead : g'.head.frame = g.head.frame)
    (hlength : g'.length.frame = g.length.frame)
    (hdictionary : g'.dictionary.map Field.frame = g.dictionary.map Field.frame)
    (hrectangular : g.Rectangular → g'.Rectangular) : g.Keeps g' := by
  refine ⟨?_, hrectangular⟩
  have hfields : g'.dictionary.map Field.reset = g.dictionary.map Field.reset := by
    have hmap := congrArg (List.map fun frame => Field.fresh frame.1 frame.2) hdictionary
    rwa [List.map_map, List.map_map] at hmap
  simp only [Group.reset, bare, Field.reset_of_frame hhead, Field.reset_of_frame hlength, hfields]

theorem widths_readRows {withMap : Bool} {fields : List Field} {rows : List Row} {width : Nat}
    (hrows : ∀ row ∈ rows, row.length = width) (place : RowPlace) (bytes : List UInt8) :
    ∀ row ∈ (readRows withMap fields rows place bytes).state.2, row.length = width := by
  intro row hrow
  have hmem : row.length ∈ rows.map List.length := by
    rw [← lengths_readRows withMap fields rows place bytes]
    exact List.mem_map_of_mem hrow
  obtain ⟨before, hbefore, hlength⟩ := List.mem_map.1 hmem
  rw [← hlength]
  exact hrows before hbefore

theorem keeps_readFrom (g : Group) (start : Nat) (place : RowPlace) (bytes : List UInt8) :
    g.Keeps (g.readFrom start place bytes).state := by
  have hframe := frame_readRows g.rowsHaveMap g.dictionary (g.rows.drop start) place bytes
  rw [readFrom_eq]
  refine keeps_of_frame rfl rfl hframe fun hg row hrow => ?_
  have hwidth := congrArg List.length hframe
  rw [List.length_map, List.length_map] at hwidth
  refine Eq.trans ?_ hwidth.symm
  simp only [Progress.within, List.mem_append] at hrow
  rcases hrow with (hrow | hrow) | hrow
  · exact hg row (List.mem_append_left _ (List.mem_of_mem_take hrow))
  · exact widths_readRows (fun row h => hg row (List.mem_append_left _ (List.mem_of_mem_drop h)))
      place bytes row hrow
  · exact hg row (List.mem_append_right _ hrow)

theorem keeps_read (g : Group) (map : PresenceMap) (place : GroupPlace) (bytes : List UInt8) :
    g.Keeps (g.read map place bytes).state := by
  cases place with
  | row i place => exact g.keeps_readFrom i place bytes
  | length =>
    rw [read_length]
    refine Progress.state_afterToken (keeps_of_frame rfl rfl rfl id) fun length rest hread => ?_
    have hframe := (g.length.read_yields_frame map).of_done hread
    simp only [readBody]
    split
    · exact keeps_of_frame rfl hframe rfl id
    · have hlength : g.Keeps (g.withLength length) :=
        keeps_of_frame rfl hframe rfl (Rectangular.withLength · length)
      exact hlength.trans ((g.withLength length).keeps_readFrom 0 {} rest)

theorem keeps_reset (g : Group) : g.Keeps g.reset := by
  refine keeps_of_frame rfl rfl ?_ fun hg row hrow => ?_
  · rw [reset, List.map_map]
    rfl
  · obtain ⟨before, hbefore, rfl⟩ := List.mem_map.1 hrow
    simp [resetRow, reset, hg before hbefore]

end Group

/-! ## Items -/

/-- What is kept of each element is kept of the list. -/
theorem map_eq_of_forall₂ {α β : Type} {R : α → α → Prop} {f : α → β} {P : α → Prop}
    {l l' : List α} (h : List.Forall₂ R l l') (hf : ∀ a b, R a b → f b = f a)
    (hP : ∀ a b, R a b → P a → P b) :
    l'.map f = l.map f ∧ ((∀ a ∈ l, P a) → ∀ b ∈ l', P b) := by
  induction h with
  | nil => exact ⟨rfl, id⟩
  | cons hab _ ih =>
    refine ⟨by rw [List.map_cons, List.map_cons, hf _ _ hab, ih.1], fun hl => ?_⟩
    obtain ⟨ha, hl⟩ := List.forall_mem_cons.1 hl
    exact List.forall_mem_cons.2 ⟨hP _ _ hab ha, ih.2 hl⟩

namespace Item

def bare : Item → Item
  | scalar f => .scalar f
  | group g => .group g.bare

def shown : Item → Item
  | scalar f => .scalar f
  | group g => .group g.shown

theorem bare_shown (i : Item) : i.shown.bare = i.bare := by
  cases i <;> rfl

theorem bare_reset (i : Item) : i.reset.bare = i.bare.reset := by
  cases i <;> rfl

theorem shown_reset (i : Item) : i.reset.shown = i.bare.reset := by
  cases i <;> rfl

theorem bare_of_shown {i i' : Item} (h : i.shown = i'.shown) : i.bare = i'.bare := by
  rw [← bare_shown, h, bare_shown]

theorem read_tallies {i i' : Item} (h : i.bare = i'.bare) (hi : i.Rectangular)
    (hi' : i'.Rectangular) (map : PresenceMap) (bytes : List UInt8) :
    Tallies (fun i i' => i.bare = i'.bare) (fun i i' => i.shown = i'.shown)
      (i.read map .length bytes) (i'.read map .length bytes) := by
  cases i with
  | scalar f =>
    cases i' with
    | group g => cases h
    | scalar f' =>
      obtain rfl := Item.scalar.inj h
      rw [read_scalar]
      exact .afterToken (by rfl) fun f rest _ => .finished (by rfl) (by rfl) rest
  | group g =>
    cases i' with
    | scalar f => cases h
    | group g' =>
      refine (Group.read_tallies (Item.group.inj h) hi hi' map bytes).within ?_ ?_
      · exact fun g g' h => congrArg Item.group h
      · exact fun g g' h => congrArg Item.group h

theorem readAll_tallies {items items' : List Item} (h : items.map bare = items'.map bare)
    (hi : ∀ i ∈ items, i.Rectangular) (hi' : ∀ i ∈ items', i.Rectangular) (map : PresenceMap)
    (bytes : List UInt8) :
    Tallies (fun s t => s.map bare = t.map bare) (fun s t => s.map shown = t.map shown)
      (readAll map items .length bytes) (readAll map items' .length bytes) := by
  induction items generalizing items' bytes with
  | nil =>
    obtain rfl := List.map_eq_nil_iff.1 h.symm
    exact .finished (by rfl) (by rfl) bytes
  | cons i items ih =>
    obtain ⟨i', items', rfl, hhead, htail⟩ := List.map_eq_cons_iff.1 h.symm
    obtain ⟨hhere, hi⟩ := List.forall_mem_cons.1 hi
    obtain ⟨hhere', hi'⟩ := List.forall_mem_cons.1 hi'
    rw [readAll_cons, readAll_cons]
    refine (read_tallies hhead.symm hhere hhere' map bytes).andThen ?_ fun s t rest _ hst => ?_
    · intro s t hst
      rw [List.map_cons, List.map_cons, hst, htail]
    · refine (ih htail.symm hi hi' rest).within ?_ ?_
      · intro back back' hback
        rw [List.map_cons, List.map_cons, bare_of_shown hst, hback]
      · intro back back' hback
        rw [List.map_cons, List.map_cons, hst, hback]

structure Keeps (i i' : Item) : Prop where
  reset : i'.reset.bare = i.reset.bare
  rectangular : i.Rectangular → i'.Rectangular

theorem keeps_refl (i : Item) : i.Keeps i := ⟨rfl, id⟩

theorem keeps_of_group {g g' : Group} (h : g.Keeps g') : (group g).Keeps (group g') :=
  ⟨congrArg Item.group h.reset, h.rectangular⟩

theorem keeps_read (i : Item) (map : PresenceMap) (place : GroupPlace) (bytes : List UInt8) :
    i.Keeps (i.read map place bytes).state := by
  cases i with
  | group g => exact keeps_of_group (g.keeps_read map place bytes)
  | scalar f =>
    rw [read_scalar]
    refine Progress.state_afterToken (keeps_refl _) fun f' rest hread => ?_
    have hframe := (f.read_yields_frame map).of_done hread
    exact ⟨congrArg Item.scalar (Field.reset_of_frame hframe), id⟩

theorem keeps_reset (i : Item) : i.Keeps i.reset := by
  cases i with
  | group g => exact keeps_of_group g.keeps_reset
  | scalar f => exact ⟨rfl, id⟩

theorem keeps_readAll (map : PresenceMap) (items : List Item) (place : GroupPlace)
    (bytes : List UInt8) : List.Forall₂ Keeps items (readAll map items place bytes).state := by
  induction items generalizing place bytes with
  | nil => exact .nil
  | cons i items ih =>
    have hread := i.keeps_read map place bytes
    have hrefl : List.Forall₂ Keeps items items := List.forall₂_same.2 fun i _ => i.keeps_refl
    rw [readAll_cons]
    exact Progress.state_andThen (J := List.Forall₂ Keeps (i :: items)) (.cons hread hrefl)
      fun rest => .cons hread (ih .length rest)

end Item

/-! ## Messages -/

namespace Message

def bare (m : Message) : Message := { m with items := m.items.map Item.bare }

def shown (m : Message) : Message := { m with items := m.items.map Item.shown }

theorem bare_shown (m : Message) : m.shown.bare = m.bare := by
  simp [shown, bare, Item.bare_shown]

theorem bare_of_shown {m m' : Message} (h : m.shown = m'.shown) : m.bare = m'.bare := by
  rw [← bare_shown, h, bare_shown]

theorem bare_reset (m : Message) : m.reset.bare = m.bare.reset := by
  simp [reset, bare, Item.bare_reset]

theorem shown_reset (m : Message) : m.reset.shown = m.bare.reset := by
  simp [reset, shown, bare, Item.shown_reset]

theorem read_tallies {m m' : Message} (h : m.bare = m'.bare) (hm : m.Rectangular)
    (hm' : m'.Rectangular) (map : PresenceMap) (bytes : List UInt8) :
    Tallies (fun m m' => m.bare = m'.bare) (fun m m' => m.shown = m'.shown)
      (m.read map {} bytes) (m'.read map {} bytes) := by
  obtain ⟨id, name, resets, items⟩ := m
  obtain ⟨id', name', resets', items'⟩ := m'
  obtain ⟨rfl, rfl, rfl, hitems⟩ := Message.mk.inj h
  refine (Item.readAll_tallies hitems hm hm' map bytes).within ?_ ?_
  · exact fun s t hst => congrArg (Message.mk id name resets) hst
  · exact fun s t hst => congrArg (Message.mk id name resets) hst

structure Keeps (m m' : Message) : Prop where
  reset : m'.reset.bare = m.reset.bare
  rectangular : m.Rectangular → m'.Rectangular

theorem keeps_refl (m : Message) : m.Keeps m := ⟨rfl, fun hm => hm⟩

theorem Keeps.trans {m m' m'' : Message} (h : m.Keeps m') (h' : m'.Keeps m'') : m.Keeps m'' :=
  ⟨h'.reset.trans h.reset, fun hm => h'.rectangular (h.rectangular hm)⟩

theorem keeps_of_items {m : Message} {items : List Item}
    (h : List.Forall₂ Item.Keeps m.items items) : m.Keeps { m with items } := by
  obtain ⟨hreset, hrectangular⟩ :=
    @map_eq_of_forall₂ _ _ _ (fun i : Item => i.reset.bare) Item.Rectangular _ _ h
      (fun _ _ h => h.reset) fun _ _ h => h.rectangular
  refine ⟨?_, hrectangular⟩
  simp only [Message.reset, bare, List.map_map]
  exact congrArg (Message.mk m.id m.name m.resets) hreset

theorem keeps_read (m : Message) (map : PresenceMap) (place : Place) (bytes : List UInt8) :
    m.Keeps (m.read map place bytes).state := by
  refine keeps_of_items ?_
  have hrefl : List.Forall₂ Item.Keeps (m.items.take place.item) (m.items.take place.item) :=
    List.forall₂_same.2 fun i _ => i.keeps_refl
  have happend : List.Forall₂ Item.Keeps (m.items.take place.item ++ m.items.drop place.item) _ :=
    List.rel_append hrefl (Item.keeps_readAll map (m.items.drop place.item) place.group bytes)
  rwa [List.take_append_drop] at happend

theorem keeps_reset (m : Message) : m.Keeps m.reset := by
  refine keeps_of_items ?_
  rw [List.forall₂_map_right_iff]
  exact List.forall₂_same.2 fun i _ => i.keeps_reset

end Message

end MarketFeed
