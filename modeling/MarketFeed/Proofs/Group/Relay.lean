import MarketFeed.Proofs.Field.Relay
import MarketFeed.Proofs.Message.Copying

/-!
# Rows and groups can be passed on

Where a sender's row holds what a receiver has read, field by field, the row can be written, and the
bytes do to the receiver just what those did that it was read from. The dictionaries agree
afterwards, so that this carries through all the rows of a group: `Group.Agrees.relays`.
-/

namespace MarketFeed.Group

/-- What every field of a dictionary remembers is of its kind. -/
def AllTyped (fields : List Field) : Prop := ∀ f ∈ fields, f.Typed

/-! ## Rows -/

theorem length_readCells (map : PresenceMap) (fields : List Field) (row : Row)
    (bytes : List UInt8) : (readCells map fields row bytes).state.2.length = row.length := by
  induction fields generalizing row bytes with
  | nil => rfl
  | cons f fields ih =>
    cases row with
    | nil => rfl
    | cons entry row =>
      rw [readCells_cons]
      refine Progress.state_afterToken (J := fun s : List Field × Row =>
        s.2.length = (entry :: row).length) rfl fun f' rest _ => ?_
      simp only [Progress.within, List.length_cons, ih]

theorem length_readRow (map : PresenceMap) (start : Nat) (fields : List Field) (row : Row)
    (bytes : List UInt8) : (readRow map start fields row bytes).state.2.length = row.length := by
  simp only [readRow, Progress.within, List.length_append, length_readCells, List.length_take,
    List.length_drop]
  omega

/-- Reading leaves as many rows as there were, and each as long as it was. -/
theorem lengths_readRows (withMap : Bool) (fields : List Field) (rows : List Row)
    (place : RowPlace) (bytes : List UInt8) :
    (readRows withMap fields rows place bytes).state.2.map List.length = rows.map List.length := by
  induction rows generalizing fields place bytes with
  | nil => rfl
  | cons row rows ih =>
    let Lengths (s : List Field × List Row) :=
      s.2.map List.length = (row :: rows).map List.length
    rw [readRows_cons]
    refine Progress.state_afterToken (J := Lengths) rfl fun map middle _ => ?_
    have hrow := length_readRow map place.field fields row middle
    refine Progress.state_andThen (J := Lengths) ?_ fun rest => ?_
    · simp only [Lengths, List.map_cons, hrow]
    · simp only [Lengths, Progress.within, List.map_cons, hrow, ih]

theorem relay_readCells {fields rfields rfields' : List Field}
    (hagree : List.Forall₂ Field.Agrees fields rfields) (ht : AllTyped rfields) {next : Nat}
    (hbits : BitsFrom next (fields.map Field.bit)) {map : PresenceMap} {rrow rrow' : Row}
    (hlen : rrow.length = rfields.length) {bytes rest : List UInt8}
    (hread : readCells map rfields rrow bytes = ⟨(rfields', rrow'), .done, rest⟩) {row : Row}
    (hrow : row.map Entry.value? = rrow'.map Entry.value?) {into : PresenceMap}
    (hclear : into.ClearFrom next) (hwithin : into.Within map) :
    ∃ marked written fields', writeCells fields row into = (.ok (marked, written), fields') ∧
      written.length + rest.length ≤ bytes.length ∧ marked.Within map ∧
      List.Forall₂ Field.Agrees fields' rfields' ∧ AllTyped rfields' ∧
      ∀ sent, (∀ f ∈ fields, f.isMarked sent = f.isMarked marked) →
        Completes (readCells sent rfields rrow) written (rfields', rrow') := by
  induction hagree generalizing next rrow rrow' bytes row into rfields' with
  | nil =>
    obtain rfl := List.eq_nil_of_length_eq_zero hlen
    obtain ⟨hs, -, rfl⟩ := Progress.mk.inj hread
    obtain ⟨rfl, rfl⟩ := Prod.mk.inj hs
    obtain rfl := List.map_eq_nil_iff.1 hrow
    exact ⟨into, [], [], rfl, by simp, hwithin, .nil, ht, fun _ _ => .finished _⟩
  | @cons f r fields rfields hfr hagree ih =>
    obtain ⟨rentry, rrow, rfl⟩ := List.exists_cons_of_length_eq_add_one hlen
    rw [readCells_cons] at hread
    obtain ⟨r', middle, hhead, hread⟩ := Progress.afterToken_eq_done hread
    obtain ⟨hkind, hhead⟩ := readCell_eq_done hhead
    obtain ⟨⟨rfields'', rrow''⟩, hcells, hs⟩ := Progress.within_eq_done hread
    obtain ⟨rfl, rfl⟩ := Prod.mk.inj hs
    obtain ⟨entry, row, rfl, hentry, hrow⟩ := List.map_eq_cons_iff.1 hrow
    obtain ⟨hr, ht⟩ := List.forall_mem_cons.1 ht
    -- The first field is passed on, and takes the bits up to `next'`.
    obtain ⟨marked, payload, hwrite, hpayload, hwithin, hagree', hr', htakes⟩ :=
      (hfr.put entry).relay_read hr hhead hentry hwithin
    obtain ⟨next', hle, hbits', hclear', hbelow, hmarked⟩ :=
      Field.clearFrom_write hwrite hbits hclear
    obtain ⟨marked', written, fields', htail, hlength, hwithin', hagrees, ht', hcompletes⟩ :=
      ih ht hbits' (by simpa using hlen) hcells hrow hclear' hwithin
    refine ⟨marked', payload ++ written, _ :: fields', ?_, ?_, hwithin',
      .cons hagree' hagrees, List.forall_mem_cons.2 ⟨hr', ht'⟩, fun sent hsent => ?_⟩
    · simp only [writeCells, if_neg (hfr.decl ▸ hkind : f.decl.kind ≠ .sequence), hwrite, htail]
    · rw [List.length_append]
      omega
    · have hmarks : f.isMarked sent = (f.put entry).marks :=
        (hsent f (by simp)).trans (hmarked marked' (clearFrom_writeCells htail hbits' hclear'))
      rw [readCells_cons, readCell_eq hkind]
      exact .afterToken (htakes sent hmarks)
        ((hcompletes sent fun f hf => hsent f (List.mem_cons_of_mem _ hf)).within _ _) _ _

/-- The map of a row is passed on in no more groups than it had. -/
theorem readRowMap_costs (withMap : Bool) :
    (readRowMap withMap {}).Costs fun map n => ∀ into : PresenceMap, into.Within map →
      (if withMap then into.write else []).length ≤ n := by
  cases withMap with
  | true => exact PresenceMap.read_costs.mono fun map n hn into h => h.length_write_le hn
  | false => exact .pure fun _ _ => Nat.le_refl 0

theorem relay_readRows {withMap : Bool} {fields rfields rfields' : List Field}
    (hagree : List.Forall₂ Field.Agrees fields rfields) (ht : AllTyped rfields)
    (hbits : BitsFrom 0 (fields.map Field.bit)) (hmap : withMap = fields.any (·.bit.isSome))
    {rrows rrows' : List Row} (hrect : ∀ row ∈ rrows, row.length = rfields.length)
    {bytes rest : List UInt8}
    (hread : readRows withMap rfields rrows {} bytes = ⟨(rfields', rrows'), .done, rest⟩)
    {rows : List Row}
    (hrows : rows.map (·.map Entry.value?) = rrows'.map (·.map Entry.value?)) :
    ∃ written fields', writeRows withMap fields rows = (.ok written, fields') ∧
      written.length + rest.length ≤ bytes.length ∧
      List.Forall₂ Field.Agrees fields' rfields' ∧ AllTyped rfields' ∧
      Completes (readRows withMap rfields rrows {}) written (rfields', rrows') := by
  induction rrows generalizing fields rfields rfields' bytes rrows' rows with
  | nil =>
    obtain ⟨hs, -, rfl⟩ := Progress.mk.inj hread
    obtain ⟨rfl, rfl⟩ := Prod.mk.inj hs
    obtain rfl := List.map_eq_nil_iff.1 hrows
    exact ⟨[], fields, rfl, by simp, hagree, ht, .finished _⟩
  | cons rrow rrows ih =>
    rw [readRows_cons] at hread
    obtain ⟨map, middle, hrowMap, hread⟩ := Progress.afterToken_eq_done hread
    rw [readRowsAfterMap, readRow_zero] at hread
    obtain ⟨⟨rmiddle, rrow'⟩, middle', hcells, hread⟩ := Progress.andThen_eq_done hread
    obtain ⟨⟨rfields'', rrows''⟩, hback, hs⟩ := Progress.within_eq_done hread
    obtain ⟨rfl, rfl⟩ := Prod.mk.inj hs
    obtain ⟨row, rows, rfl, hrow, hrows⟩ := List.map_eq_cons_iff.1 hrows
    obtain ⟨hlen, hrect⟩ := List.forall_mem_cons.1 hrect
    obtain ⟨n, hn, hsize⟩ := (readRowMap_costs withMap).of_done hrowMap
    obtain ⟨marked, written, fmiddle, hwrite, hlength, hwithin, hagree', ht', hcompletes⟩ :=
      relay_readCells hagree ht hbits hlen hcells hrow (PresenceMap.clearFrom_empty 0)
        (PresenceMap.empty_within map)
    -- The dictionaries that the next row meets have the bits and the length that they had before.
    have hframe : fmiddle.map Field.frame = fields.map Field.frame := by
      have := frame_writeCells fields row .empty
      rwa [hwrite] at this
    have hbits' := bits_of_frames hframe
    have hmap' : withMap = fmiddle.any (·.bit.isSome) := by
      have := congrArg (List.any · Option.isSome) hbits'
      simp only [List.any_map] at this
      rw [hmap]
      exact this.symm
    have hrlen : rmiddle.length = rfields.length := by
      have := congrArg List.length (frame_readCells map rfields rrow middle)
      rw [hcells] at this
      simpa using this
    obtain ⟨back, fields', htail, hlength', hagrees, ht'', hreads⟩ :=
      ih hagree' ht' (hbits' ▸ hbits) hmap' (fun row hr => (hrect row hr).trans hrlen.symm) hback
        hrows
    refine ⟨(if withMap then marked.write else []) ++ (written ++ back), fields', ?_, ?_, hagrees,
      ht'', ?_⟩
    · simp only [writeRows, hwrite, htail, List.append_assoc]
    · have := hsize marked hwithin
      simp only [List.length_append]
      omega
    · obtain ⟨sent, hsent, hmarked⟩ := readRowMap_takes hmap marked
      rw [readRows_cons]
      refine .afterToken hsent ?_ _ _
      rw [readRowsAfterMap, readRow_zero]
      exact .andThen (hcompletes sent hmarked) (hreads.within _ _) _ _

/-! ## Groups -/

variable {g r r' : Group}

structure Typed (g : Group) : Prop where
  length : g.length.Typed
  dictionary : AllTyped g.dictionary

/-- The group with this length and as many rows, which are still to be read. -/
def withLength (g : Group) (length : Field) : Group :=
  let g := { g with length }
  g.resize g.transmittedLength.toNat

theorem length_rows_withLength (g : Group) (length : Field) :
    (g.withLength length).rows.length = ({ g with length } : Group).transmittedLength.toNat :=
  length_rows_resize _ _

theorem Rectangular.withLength (h : g.Rectangular) (length : Field) :
    (g.withLength length).Rectangular :=
  Rectangular.resize (g := { g with length }) h _

/-- A length that is not past the capacity is followed by the rows. -/
theorem readBody_eq {length : Field}
    (h : ({ g with length } : Group).transmittedLength.toNat ≤ maxRows) :
    g.readBody length = fun bytes =>
      (readRows g.rowsHaveMap g.dictionary (g.withLength length).rows {} bytes).within
        (fun s => { g.withLength length with dictionary := s.1, rows := s.2 }) (shiftPlace 0) := by
  funext bytes
  rw [readBody, if_neg (Nat.not_lt.2 h)]
  exact readFrom_eq (g.withLength length) 0 {} bytes

/-- What there is of a group once it has been read: its length, and the rows that were read. -/
theorem read_eq_done {map : PresenceMap} {bytes rest : List UInt8}
    (h : r.read map .length bytes = ⟨r', .done, rest⟩) :
    ∃ length middle dictionary rows, r.length.read map bytes = .done length middle ∧
      ({ r with length } : Group).transmittedLength.toNat ≤ maxRows ∧
      readRows r.rowsHaveMap r.dictionary (r.withLength length).rows {} middle =
        ⟨(dictionary, rows), .done, rest⟩ ∧
      r' = { r.withLength length with dictionary, rows } := by
  rw [read_length] at h
  obtain ⟨length, middle, hlength, h⟩ := Progress.afterToken_eq_done h
  by_cases hmax : ({ r with length } : Group).transmittedLength.toNat ≤ maxRows
  · rw [readBody_eq hmax] at h
    obtain ⟨⟨dictionary, rows⟩, hrows, rfl⟩ := Progress.within_eq_done h
    exact ⟨length, middle, dictionary, rows, hlength, hmax, hrows, rfl⟩
  · rw [readBody, if_pos (Nat.not_le.1 hmax)] at h
    cases h

/-- A group that has been read has as many rows as its length says, and each as wide as before. -/
theorem copyable_of_read (hr : r.Rectangular) (hkind : r.length.decl.kind = .uint)
    (ht : r.length.Typed) {map : PresenceMap} {bytes rest : List UInt8}
    (h : r.read map .length bytes = ⟨r', .done, rest⟩) :
    r'.Copyable r.dictionary.length ∧ r'.Rectangular := by
  obtain ⟨length, middle, dictionary, rows, hlength, hmax, hrows, rfl⟩ := read_eq_done h
  have hlengths := lengths_readRows r.rowsHaveMap r.dictionary (r.withLength length).rows {} middle
  have hframe := congrArg List.length
    (frame_readRows r.rowsHaveMap r.dictionary (r.withLength length).rows {} middle)
  rw [hrows] at hlengths hframe
  have hwidth : dictionary.length = r.dictionary.length := by simpa using hframe
  have hcount : rows.length = ({ r with length } : Group).transmittedLength.toNat := by
    rw [← length_rows_withLength]
    simpa using congrArg List.length hlengths
  have hwidths (row : Row) (hrow : row ∈ rows) : row.length = r.dictionary.length := by
    have hmem : row.length ∈ (r.withLength length).rows.map List.length := by
      rw [← hlengths]
      exact List.mem_map_of_mem hrow
    obtain ⟨before, hbefore, heq⟩ := List.mem_map.1 hmem
    rw [← heq]
    exact hr.withLength length before (List.mem_append_left _ hbefore)
  refine ⟨⟨hkind ▸ ht.kind_of_read hlength, hcount.symm, hcount ▸ hmax, hwidths⟩,
    fun row hrow => ?_⟩
  refine Eq.trans ?_ hwidth.symm
  rcases List.mem_append.1 hrow with hrow | hrow
  · exact hwidths row hrow
  · exact hr.withLength length row (List.mem_append_right _ hrow)

theorem write_eq (hc : g.Counted) (hmax : g.rows.length ≤ maxRows) {into : PresenceMap}
    {w : Field.Written} (hw : g.length.write into = .ok w) {back : List UInt8}
    {dictionary : List Field}
    (hrows : writeRows g.rowsHaveMap g.dictionary g.rows = (.ok back, dictionary)) :
    g.write into = (.ok (w.map, w.bytes ++ back), { g with length := w.field, dictionary }) := by
  have hmap : rowsHaveMap { g with length := w.field } = g.rowsHaveMap := rfl
  simp only [write, show g.transmittedLength.toNat = g.rows.length from hc, List.take_left]
  rw [if_neg (by rw [List.length_append]; omega), hw]
  simp only [hmap, hrows]

/-- A group is passed on by any that agrees and holds the same. -/
theorem Agrees.relays (h : g.Agrees r) (hg : g.Sound) (ht : r.Typed) (hr : r.Rectangular)
    {map : PresenceMap} {bytes rest : List UInt8}
    (hread : r.read map .length bytes = ⟨r', .done, rest⟩) (hm : g.Matches r')
    {into : PresenceMap} (hwithin : into.Within map) :
    ∃ marked written g', g.write into = (.ok (marked, written), g') ∧
      written.length + rest.length ≤ bytes.length ∧ marked.Within map ∧ g'.Agrees r' ∧
      r'.Typed ∧ r'.Rectangular ∧
      ∀ sent, g.length.isMarked sent = g.length.marks →
        Completes (r.read sent .length) written r' := by
  have hkind : r.length.decl.kind = .uint := by
    rw [h.length.decl]
    exact hg.declares.kind
  obtain ⟨hcopyable, hrect⟩ := copyable_of_read hr hkind ht.length hread
  obtain ⟨length, middle, dictionary, rows, hlength, hmax, hrows, rfl⟩ := read_eq_done hread
  obtain ⟨marked, payload, hwrite, hpayload, hwithin', hagree, htyped, htakes⟩ :=
    h.length.relay_read ht.length hlength hm.length hwithin
  have hwidths (row : Row) (hrow : row ∈ (r.withLength length).rows) :
      row.length = r.dictionary.length :=
    hr.withLength length row (List.mem_append_left _ hrow)
  obtain ⟨back, fields', hback, hlengths, hagrees, ht', hreads⟩ :=
    relay_readRows h.dictionary ht.dictionary hg.declares.dictionary.bits (rowsHaveMap_of_agrees h)
      hwidths hrows hm.rows
  refine ⟨marked, payload ++ back, _, write_eq hg.counted (hm.count ▸ hcopyable.max) hwrite ?_, ?_,
    hwithin', ⟨h.head, hagree, hagrees⟩, ⟨htyped, ht'⟩, hrect, fun sent hsent => ?_⟩
  · rw [← rowsHaveMap_of_agrees h]
    exact hback
  · rw [List.length_append]
    omega
  · rw [read_length]
    refine .afterToken (htakes sent hsent) ?_ _ _
    rw [readBody_eq hmax]
    exact hreads.within _ _

end MarketFeed.Group
