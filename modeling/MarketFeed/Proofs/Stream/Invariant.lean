import MarketFeed.Proofs.Stream.Contract

/-!
# What is true of every field of a slot

A property that fields have when they are fresh and that reads keep is true throughout a slot,
whatever was decoded into it, given up or reset: of the fields of the message, of the lengths and
dictionaries of its groups, and, as far as the rows show it, of the field that each cell was copied
from: `Decoder.Visited.throughout`.
-/

namespace MarketFeed

/-- Fresh fields have the property, and reads keep it. -/
structure Field.Invariant (Q : Field → Prop) : Prop where
  fresh (d : Decl) (bit : Option Nat) : Q (.fresh d bit)
  read {f : Field} (h : Q f) (map : PresenceMap) : (f.read map).Yields Q

/-- The entry was copied from a field of the declaration, which had the property. -/
def Decl.Shows (Q : Field → Prop) (d : Decl) (e : Entry) : Prop :=
  ∃ f, Q f ∧ f.decl = d ∧ f.current = e

variable {Q : Field → Prop}

namespace Group

/-! ## Rows -/

/-- Fields with their rows, all of which have the property or show it. -/
structure Table (Q : Field → Prop) (ds : List Decl) (s : List Field × List Row) : Prop where
  decls : s.1.map Field.decl = ds
  fields : ∀ f ∈ s.1, Q f
  rows : ∀ row ∈ s.2, List.Forall₂ (Decl.Shows Q) ds row

theorem Table.shows {ds : List Decl} {s : List Field × List Row} (h : Table Q ds s) :
    List.Forall₂ (Decl.Shows Q) ds (s.1.map Field.current) := by
  rw [← h.decls, List.forall₂_map_left_iff, List.forall₂_map_right_iff]
  exact List.forall₂_same.2 fun f hf => ⟨f, h.fields f hf, rfl, rfl⟩

theorem readCells_shows (hq : Field.Invariant Q) (map : PresenceMap) {fields : List Field}
    {row : Row} (hfields : ∀ f ∈ fields, Q f)
    (hrow : List.Forall₂ (Decl.Shows Q) (fields.map Field.decl) row) (bytes : List UInt8) :
    (∀ f ∈ (readCells map fields row bytes).state.1, Q f) ∧
      List.Forall₂ (Decl.Shows Q) (fields.map Field.decl)
        (readCells map fields row bytes).state.2 := by
  induction fields generalizing row bytes with
  | nil =>
    cases hrow
    exact ⟨hfields, .nil⟩
  | cons f fields ih =>
    obtain ⟨entry, row, hentry, hcells, rfl⟩ := List.forall₂_cons_left_iff.1 hrow
    obtain ⟨hf, hrest⟩ := List.forall_mem_cons.1 hfields
    rw [readCells_cons]
    refine Progress.state_afterToken (J := fun s : List Field × Row => (∀ f ∈ s.1, Q f) ∧
      List.Forall₂ (Decl.Shows Q) ((f :: fields).map Field.decl) s.2)
      ⟨hfields, hrow⟩ fun f' rest hread => ?_
    have hread := (readCell_eq_done hread).2
    have hf' := (hq.read hf map).of_done hread
    have hdecl := congrArg Prod.fst ((f.read_yields_frame map).of_done hread)
    obtain ⟨hfields', hcells'⟩ := ih hrest hcells rest
    exact ⟨List.forall_mem_cons.2 ⟨hf', hfields'⟩, .cons ⟨f', hf', hdecl, rfl⟩ hcells'⟩

theorem readRow_shows (hq : Field.Invariant Q) (map : PresenceMap) (start : Nat)
    {fields : List Field} {row : Row} (hfields : ∀ f ∈ fields, Q f)
    (hrow : List.Forall₂ (Decl.Shows Q) (fields.map Field.decl) row) (bytes : List UInt8) :
    (∀ f ∈ (readRow map start fields row bytes).state.1, Q f) ∧
      List.Forall₂ (Decl.Shows Q) (fields.map Field.decl)
        (readRow map start fields row bytes).state.2 := by
  obtain ⟨hfields', hrow'⟩ := readCells_shows hq map
    (fun f hf => hfields f (List.mem_of_mem_drop hf))
    (by simpa only [List.map_drop] using List.forall₂_drop start hrow) bytes
  refine ⟨List.forall_mem_append.2 ⟨fun f hf => hfields f (List.mem_of_mem_take hf), hfields'⟩, ?_⟩
  have hwhole : List.Forall₂ (Decl.Shows Q)
      ((fields.map Field.decl).take start ++ (fields.drop start).map Field.decl)
      (readRow map start fields row bytes).state.2 :=
    List.rel_append (List.forall₂_take start hrow) hrow'
  rwa [List.map_drop, List.take_append_drop] at hwhole

theorem readRows_table (hq : Field.Invariant Q) (withMap : Bool) {ds : List Decl}
    {fields : List Field} {rows : List Row} (h : Table Q ds (fields, rows)) (place : RowPlace)
    (bytes : List UInt8) : Table Q ds (readRows withMap fields rows place bytes).state := by
  induction rows generalizing fields place bytes with
  | nil => exact h
  | cons row rows ih =>
    obtain ⟨hrow, hrows⟩ := List.forall_mem_cons.1 h.rows
    rw [readRows_cons]
    refine Progress.state_afterToken (J := Table Q ds) h fun map rest _ => ?_
    have hframe := frame_readRow map place.field fields row rest
    have hread := readRow_shows hq map place.field h.fields (h.decls.symm ▸ hrow) rest
    rw [show fields.map Field.decl = ds from h.decls] at hread
    have hdecls := (decls_of_frames hframe).trans h.decls
    refine Progress.state_andThen (J := Table Q ds) ?_ fun rest' => ?_
    · exact ⟨hdecls, hread.1, List.forall_mem_cons.2 ⟨hread.2, hrows⟩⟩
    · have hrest : Table Q ds ((readRow map place.field fields row rest).state.1, rows) :=
        ⟨hdecls, hread.1, hrows⟩
      obtain ⟨hdecls', hfields', hrows'⟩ := ih hrest {} rest'
      exact ⟨hdecls', hfields', List.forall_mem_cons.2 ⟨hread.2, hrows'⟩⟩

/-! ## Groups -/

/-- The property is true throughout the group, but for its head, which is never read. -/
structure Throughout (Q : Field → Prop) (g : Group) : Prop where
  length : Q g.length
  table : Table Q g.decls (g.dictionary, g.rows ++ g.spare)

variable {g : Group}

theorem Throughout.resize (h : g.Throughout Q) (n : Nat) : (g.resize n).Throughout Q where
  length := h.length
  table := by
    refine ⟨rfl, h.table.fields, fun row hrow => ?_⟩
    simp only [Group.resize, List.take_append_drop] at hrow
    rcases List.mem_append.1 hrow with hrow | hrow
    · exact h.table.rows row hrow
    · rw [List.eq_of_mem_replicate hrow]
      exact h.table.shows

theorem resetRow_eq {row : Row} (h : row.length = g.dictionary.length) :
    g.resetRow row = g.reset.dictionary.map Field.current := by
  have hzip : (g.dictionary.zip row).map Prod.fst = g.dictionary := List.map_fst_zip h.ge
  rw [reset, List.map_map]
  conv_rhs => rw [← hzip, List.map_map]
  rfl

theorem Throughout.reset (hq : Field.Invariant Q) (h : g.Throughout Q) : g.reset.Throughout Q where
  length := hq.fresh _ _
  table := by
    have hfields : ∀ f ∈ g.reset.dictionary, Q f := fun f hf => by
      obtain ⟨f, -, rfl⟩ := List.mem_map.1 hf
      exact hq.fresh _ _
    have hshows := Table.shows (Q := Q) (s := (g.reset.dictionary, [])) ⟨rfl, hfields, by simp⟩
    refine ⟨rfl, hfields, fun row hrow => ?_⟩
    obtain ⟨row, hmem, rfl⟩ := List.mem_map.1 hrow
    have hlength := (h.table.rows row hmem).length_eq
    rw [resetRow_eq (by simpa [decls] using hlength.symm)]
    exact hshows

theorem Throughout.put_length (h : g.Throughout Q) {length : Field} (hlength : Q length) :
    ({ g with length } : Group).Throughout Q := ⟨hlength, h.table⟩

theorem Throughout.readFrom (hq : Field.Invariant Q) (h : g.Throughout Q) (start : Nat)
    (place : RowPlace) (bytes : List UInt8) :
    (g.readFrom start place bytes).state.Throughout Q := by
  have hrows (row : Row) (hrow : row ∈ g.rows) := h.table.rows row (List.mem_append_left _ hrow)
  have htable : Table Q g.decls (g.dictionary, g.rows.drop start) :=
    ⟨rfl, h.table.fields, fun row hrow => hrows row (List.mem_of_mem_drop hrow)⟩
  obtain ⟨hdecls, hfields, hread⟩ := readRows_table hq g.rowsHaveMap htable place bytes
  rw [readFrom_eq]
  refine ⟨h.length, rfl, hfields, fun row hrow => ?_⟩
  suffices hshows : List.Forall₂ (Decl.Shows Q) g.decls row by
    rw [← hdecls] at hshows
    exact hshows
  simp only [Progress.within, List.mem_append] at hrow
  rcases hrow with (hrow | hrow) | hrow
  · exact hrows row (List.mem_of_mem_take hrow)
  · exact hread row hrow
  · exact h.table.rows row (List.mem_append_right _ hrow)

theorem Throughout.read (hq : Field.Invariant Q) (h : g.Throughout Q) (map : PresenceMap)
    (place : GroupPlace) (bytes : List UInt8) : (g.read map place bytes).state.Throughout Q := by
  cases place with
  | row i place => exact h.readFrom hq i place bytes
  | length =>
    rw [read_length]
    refine Progress.state_afterToken h fun length rest hread => ?_
    have hlength := h.put_length ((hq.read h.length map).of_done hread)
    rw [readBody]
    split
    · exact hlength
    · exact (hlength.resize _).readFrom hq 0 {} rest

end Group

/-! ## Messages -/

def Item.Throughout (Q : Field → Prop) : Item → Prop
  | scalar f => Q f
  | group g => g.Throughout Q

theorem Item.Throughout.reset (hq : Field.Invariant Q) {i : Item} (h : i.Throughout Q) :
    i.reset.Throughout Q := by
  cases i with
  | scalar f => exact hq.fresh _ _
  | group g => exact Group.Throughout.reset hq h

theorem Item.Throughout.read (hq : Field.Invariant Q) {i : Item} (h : i.Throughout Q)
    (map : PresenceMap) (place : GroupPlace) (bytes : List UInt8) :
    (i.read map place bytes).state.Throughout Q := by
  cases i with
  | group g => exact Group.Throughout.read hq h map place bytes
  | scalar f =>
    rw [read_scalar]
    exact Progress.state_afterToken h fun f' rest hread => (hq.read h map).of_done hread

theorem Item.Throughout.readAll (hq : Field.Invariant Q) {items : List Item}
    (h : ∀ i ∈ items, i.Throughout Q) (map : PresenceMap) (place : GroupPlace)
    (bytes : List UInt8) : ∀ i ∈ (readAll map items place bytes).state, i.Throughout Q := by
  induction items generalizing place bytes with
  | nil => exact h
  | cons i items ih =>
    obtain ⟨hi, hitems⟩ := List.forall_mem_cons.1 h
    have hread := hi.read hq map place bytes
    rw [readAll_cons]
    refine Progress.state_andThen (J := fun items : List Item => ∀ i ∈ items, i.Throughout Q)
      (List.forall_mem_cons.2 ⟨hread, hitems⟩) fun rest => ?_
    exact List.forall_mem_cons.2 ⟨hread, ih hitems .length rest⟩

def Message.Throughout (Q : Field → Prop) (m : Message) : Prop := ∀ i ∈ m.items, i.Throughout Q

namespace Message

variable {m : Message}

theorem Throughout.reset (hq : Field.Invariant Q) (h : m.Throughout Q) : m.reset.Throughout Q := by
  intro i hi
  obtain ⟨i, hmem, rfl⟩ := List.mem_map.1 hi
  exact (h i hmem).reset hq

theorem Throughout.read (hq : Field.Invariant Q) (h : m.Throughout Q) (map : PresenceMap)
    (place : Place) (bytes : List UInt8) : (m.read map place bytes).state.Throughout Q :=
  List.forall_mem_append.2 ⟨fun i hi => h i (List.mem_of_mem_take hi),
    Item.Throughout.readAll hq (fun i hi => h i (List.mem_of_mem_drop hi)) map place.group bytes⟩

end Message

theorem TemplateSet.throughout_messages (hq : Field.Invariant Q) (set : TemplateSet) :
    ∀ m ∈ set.messages, m.Throughout Q := by
  intro m hm
  obtain ⟨t, -, rfl⟩ := List.mem_map.1 hm
  intro i hi
  obtain ⟨⟨s, bit⟩, -, rfl⟩ := List.mem_map.1 hi
  cases s with
  | scalar d => exact hq.fresh d bit
  | group d length row =>
    refine ⟨hq.fresh _ _, rfl, fun f hf => ?_, by simp⟩
    obtain ⟨p, -, rfl⟩ := List.mem_map.1 hf
    exact hq.fresh _ _

/-! ## Calls -/

namespace Decoder

variable {set : TemplateSet} {d : Decoder} {ms : Messages} {P : Message → Prop}

/-- What every read of a message keeps is kept by a call. -/
theorem forall_decode (hread : ∀ m map place bytes, P m → P (m.read map place bytes).state)
    (h : ∀ m ∈ ms, P m) (d : Decoder) (buffer : List UInt8) :
    ∀ m ∈ (d.decode ms buffer).messages, P m := by
  have hinto := readInto_decode d ms buffer
  generalize (d.decode ms buffer).messages = ms' at hinto ⊢
  cases hinto with
  | none => exact h
  | one hm map place bytes =>
    intro m' hm'
    rcases List.mem_or_eq_of_mem_set hm' with hmem | rfl
    · exact h m' hmem
    · exact hread _ map place bytes (h _ (List.mem_of_getElem? hm))

/-- What is true of the fresh messages, and is kept by reading and resetting them, stays true. -/
theorem Visited.forall_messages (hfresh : ∀ m ∈ set.messages, P m)
    (hread : ∀ m map place bytes, P m → P (m.read map place bytes).state)
    (hreset : ∀ m : Message, P m → P m.reset) (h : Visited set d ms) : ∀ m ∈ ms, P m := by
  induction h with
  | fresh => exact hfresh
  | decode _ buffer ih => exact forall_decode hread ih _ buffer
  | abandon _ ih => exact ih
  | reset _ ih => exact ih
  | resetAt _ slot ih =>
    intro m hm
    rcases Messages.mem_resetAt hm with hmem | ⟨m, hmem, rfl⟩
    · exact ih m hmem
    · exact hreset m (ih m hmem)

theorem Visited.throughout (hq : Field.Invariant Q) (h : Visited set d ms) :
    ∀ m ∈ ms, m.Throughout Q :=
  h.forall_messages (set.throughout_messages hq)
    (fun _ map place bytes hm => hm.read hq map place bytes) fun _ hm => hm.reset hq

end Decoder

end MarketFeed
