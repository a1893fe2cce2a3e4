import MarketFeed.Proofs.Group.Contract

/-!
# Reading rows by index

In memory the rows that are kept for later stand behind those in use, and a cell is found by the
number of its row and the number of its field. `Group.scan` reads that way: it has no result where an
index is out of bounds, or where a delta meets a value that it cannot be added to. Of a group that is
formed it always has one, the one that `Group.read` has: `Group.Formed.scan_eq`.
-/

namespace MarketFeed

/-- Whether the field is counted on from its previous value, and that is of another shape. -/
def Field.strays (f : Field) : Bool :=
  f.decl.op == .delta && f.decl.op.allowedOn f.decl.kind &&
    match f.decl.kind with
    | .int | .uint => f.previous.value.asInt.isNone && f.previous.value.asUInt.isNone
    | .decimal => f.previous.value.asDecimal.isNone
    | _ => true

theorem Field.Kinded.strays_eq_false {f : Field} (h : f.Kinded) : f.strays = false := by
  obtain ⟨⟨hallowed, -⟩, -, hprevious⟩ := h
  unfold strays
  cases hop : f.decl.op with
  | none => rfl
  | copy => rfl
  | increment => rfl
  | constant => rfl
  | delta =>
    rw [hop] at hallowed
    cases hkind : f.decl.kind <;> rw [hkind] at hallowed hprevious <;> try cases hallowed
    all_goals cases hvalue : f.previous.value <;> rw [hvalue] at hprevious <;> try cases hprevious
    all_goals rfl

theorem Progress.within_congr {σ τ κ μ : Type} {p : Progress σ κ} {f f' : σ → τ} {g g' : κ → μ}
    (hf : f p.state = f' p.state) (hg : ∀ k, g k = g' k) : p.within f g = p.within f' g' := by
  obtain rfl : g = g' := funext hg
  simp only [within, hf]

namespace Group

/-! ## Cells -/

/-- Reads a row from its field number `i` on. -/
def scanCells (map : PresenceMap) (fields : List Field) (row : Row) (i : Nat)
    (bytes : List UInt8) : Option (Progress (List Field × Row) Nat) :=
  match _h : fields[i]? with
  | none => some ⟨(fields, row), .done, bytes⟩
  | some f =>
    if f.strays then none
    else
      match readCell f map bytes with
      | .dry => some ⟨(fields, row), .dry i, bytes⟩
      | .garbled e rest => some ⟨(fields, row), .garbled e, rest⟩
      | .done f' rest =>
        if i < row.length then scanCells map (fields.set i f') (row.set i f'.current) (i + 1) rest
        else none
termination_by fields.length - i
decreasing_by
  have := (List.getElem?_eq_some_iff.1 _h).1
  rw [List.length_set]
  omega

theorem readRow_of_le (map : PresenceMap) {fields : List Field} {row : Row} {i : Nat}
    (hi : fields.length ≤ i) (hrow : row.length ≤ i) (bytes : List UInt8) :
    readRow map i fields row bytes = ⟨(fields, row), .done, bytes⟩ := by
  rw [readRow, List.drop_eq_nil_of_le hi, List.take_of_length_le hi, List.take_of_length_le hrow,
    List.drop_eq_nil_of_le hrow, readCells]
  · simp [Progress.within, Ending.mapPlace]
  · simp

theorem take_succ_set {α : Type} {l : List α} {i : Nat} (hi : i < l.length) (a : α) :
    (l.set i a).take (i + 1) = l.take i ++ [a] := by
  rw [List.take_succ_eq_append_getElem (by simpa using hi), List.getElem_set_self,
    List.take_set_of_le (Nat.le_refl i)]

/-- A row that is read from a field on is read there, and from the next field on. -/
theorem readRow_of_lt (map : PresenceMap) {fields : List Field} {row : Row} {i : Nat}
    (hi : i < fields.length) (hrow : i < row.length) (bytes : List UInt8) :
    readRow map i fields row bytes =
      Progress.afterToken (readCell fields[i] map) (fields, row) i
        (fun f' => readRow map (i + 1) (fields.set i f') (row.set i f'.current)) bytes := by
  rw [readRow, List.drop_eq_getElem_cons hi, List.drop_eq_getElem_cons hrow, readCells_cons]
  simp only [Progress.afterToken]
  cases readCell fields[i] map bytes with
  | dry => simp [Progress.within, Ending.mapPlace]
  | garbled e rest => simp [Progress.within, Ending.mapPlace]
  | done f' rest =>
    simp only [readRow, Progress.within_within, take_succ_set hi, take_succ_set hrow,
      List.drop_set_of_lt (Nat.lt_succ_self i)]
    congr 1
    · funext s
      simp
    · funext k
      simp only [Function.comp]
      omega

/-- No index leaves a row that has a cell for each field, and no delta is without a base. -/
theorem scanCells_eq (map : PresenceMap) {fields : List Field} (h : AllKinded fields) {row : Row}
    (hrow : row.length = fields.length) (i : Nat) (bytes : List UInt8) :
    scanCells map fields row i bytes = some (readRow map i fields row bytes) := by
  fun_induction scanCells map fields row i bytes with
  | case1 fields row i bytes hnone =>
    have hi := List.getElem?_eq_none_iff.1 hnone
    rw [readRow_of_le map hi (hrow.trans_le hi)]
  | case2 fields row i bytes f hsome hstrays =>
    rw [(h f (List.mem_of_getElem? hsome)).strays_eq_false] at hstrays
    cases hstrays
  | case3 fields row i bytes f hsome hstrays hread =>
    obtain ⟨hi, rfl⟩ := List.getElem?_eq_some_iff.1 hsome
    rw [readRow_of_lt map hi (hrow ▸ hi), Progress.afterToken, hread]
  | case4 fields row i bytes f hsome hstrays e rest hread =>
    obtain ⟨hi, rfl⟩ := List.getElem?_eq_some_iff.1 hsome
    rw [readRow_of_lt map hi (hrow ▸ hi), Progress.afterToken, hread]
  | case5 fields row i bytes f hsome hstrays f' rest hread hlt ih =>
    obtain ⟨hi, rfl⟩ := List.getElem?_eq_some_iff.1 hsome
    have hf := h _ (List.getElem_mem hi)
    have hf' : f'.Kinded := by
      rw [readCell_eq hf.valid.kind_ne_sequence] at hread
      exact ((hf.read_meets map).done hread).1
    rw [readRow_of_lt map hi hlt, Progress.afterToken, hread]
    refine ih (fun f hmem => ?_) (by simpa using hrow)
    rcases List.mem_or_eq_of_mem_set hmem with hmem | rfl
    · exact h f hmem
    · exact hf'
  | case6 fields row i bytes f hsome hstrays f' rest hread hlt =>
    obtain ⟨hi, rfl⟩ := List.getElem?_eq_some_iff.1 hsome
    exact absurd (hrow ▸ hi) hlt

/-! ## Rows -/

/-- Reads the first `count` rows, from number `i` on. -/
def scanRows (withMap : Bool) (count : Nat) (fields : List Field) (rows : List Row) (i : Nat)
    (place : RowPlace) (bytes : List UInt8) :
    Option (Progress (List Field × List Row) GroupPlace) :=
  if i < count then
    match readRowMap withMap place bytes with
    | .dry => some ⟨(fields, rows), .dry (.row i place), bytes⟩
    | .garbled e rest => some ⟨(fields, rows), .garbled e, rest⟩
    | .done map rest =>
      match rows[i]? with
      | none => none
      | some row =>
        match scanCells map fields row place.field rest with
        | none => none
        | some ⟨(fields, row), .dry n, rest⟩ =>
          some ⟨(fields, rows.set i row), .dry (.row i ⟨keptMap withMap map, n⟩), rest⟩
        | some ⟨(fields, row), .garbled e, rest⟩ => some ⟨(fields, rows.set i row), .garbled e, rest⟩
        | some ⟨(fields, row), .done, rest⟩ =>
          scanRows withMap count fields (rows.set i row) (i + 1) {} rest
  else some ⟨(fields, rows), .done, bytes⟩
termination_by count - i

/-- What the rows in use become from number `i` on, among the others. -/
def placed (rows : List Row) (count i : Nat) (p : Progress (List Field × List Row) GroupPlace) :
    Progress (List Field × List Row) GroupPlace :=
  p.within (fun s => (s.1, (rows.take count).take i ++ s.2 ++ rows.drop count)) (shiftPlace i)

section

variable {rows : List Row} {count i : Nat} {fields : List Field}

theorem drop_used (hi : i < count) (hlt : i < rows.length) :
    (rows.take count).drop i = rows[i] :: (rows.take count).drop (i + 1) := by
  rw [List.drop_eq_getElem_cons (by rw [List.length_take]; omega), List.getElem_take]

/-- The rows in use around one of them, and the others. -/
theorem set_used (hi : i < count) (hcount : count ≤ rows.length) (row : Row) :
    (rows.take count).take i ++ row :: ((rows.take count).drop (i + 1) ++ rows.drop count) =
      rows.set i row := by
  have hdrop : (rows.take count).drop (i + 1) ++ rows.drop count = rows.drop (i + 1) := by
    rw [← List.drop_append_of_le_length (by rw [List.length_take]; omega), List.take_append_drop]
  rw [hdrop, List.take_take, Nat.min_eq_left (Nat.le_of_lt hi), List.set_eq_take_append_cons_drop,
    if_pos (by omega)]

theorem placed_dry (hi : i < count) (hcount : count ≤ rows.length) (row : Row) (place : RowPlace)
    (bytes : List UInt8) :
    placed rows count i
        ⟨(fields, row :: (rows.take count).drop (i + 1)), .dry (.row 0 place), bytes⟩ =
      ⟨(fields, rows.set i row), .dry (.row i place), bytes⟩ := by
  simp [placed, Progress.within, Ending.mapPlace, shiftPlace, set_used hi hcount]

theorem placed_garbled (hi : i < count) (hcount : count ≤ rows.length) (row : Row)
    (e : DecodeError) (rest : List UInt8) :
    placed rows count i ⟨(fields, row :: (rows.take count).drop (i + 1)), .garbled e, rest⟩ =
      ⟨(fields, rows.set i row), .garbled e, rest⟩ := by
  simp [placed, Progress.within, Ending.mapPlace, set_used hi hcount]

/-- Where a row has been read, the later ones are placed behind it. -/
theorem placed_cons (hi : i < count) (hcount : count ≤ rows.length) (row : Row)
    (p : Progress (List Field × List Row) GroupPlace) :
    placed rows count i (p.within (fun (fields, rows) => (fields, row :: rows)) (shiftPlace 1)) =
      placed (rows.set i row) count (i + 1) p := by
  have hin : i < (rows.take count).length := by
    rw [List.length_take]
    omega
  unfold placed
  rw [Progress.within_within]
  refine Progress.within_congr ?_ fun k => shiftPlace_shiftPlace i 1 k
  simp [Function.comp, List.take_set, take_succ_set hin, List.drop_set_of_lt hi]

theorem placed_readRows_nil (withMap : Bool) (hi : ¬ i < count) (place : RowPlace)
    (bytes : List UInt8) :
    placed rows count i (readRows withMap fields ((rows.take count).drop i) place bytes) =
      ⟨(fields, rows), .done, bytes⟩ := by
  have hle : (rows.take count).length ≤ i := by
    rw [List.length_take]
    omega
  rw [placed, List.drop_eq_nil_of_le hle, List.take_of_length_le hle, readRows]
  simp [Progress.within, Ending.mapPlace]

/-- A row that is read to its end fits the fields that it leaves. -/
theorem fits_readRow {map : PresenceMap} {start : Nat} {row row' : Row} {fields' : List Field}
    {bytes rest : List UInt8} (h : AllKinded fields) (hrow : row.length = fields.length)
    (hread : readRow map start fields row bytes = ⟨(fields', row'), .done, rest⟩) :
    AllKinded fields' ∧ fields'.length = fields.length ∧ row'.length = fields'.length := by
  have hkinded := (readRow_upholds map start h row bytes).state
  have hframe := congrArg List.length (frame_readRow map start fields row bytes)
  have hlength := length_readRow map start fields row bytes
  rw [hread] at hkinded hframe hlength
  rw [List.length_map, List.length_map] at hframe
  exact ⟨hkinded, hframe, (hlength.trans hrow).trans hframe.symm⟩

end

/-- No index leaves the rows, of which those in use are read and the others stay behind them. -/
theorem scanRows_eq (withMap : Bool) {count : Nat} {fields : List Field} (h : AllKinded fields)
    {rows : List Row} (hcount : count ≤ rows.length)
    (hrows : ∀ row ∈ rows, row.length = fields.length) (i : Nat) (place : RowPlace)
    (bytes : List UInt8) :
    scanRows withMap count fields rows i place bytes =
      some (placed rows count i
        (readRows withMap fields ((rows.take count).drop i) place bytes)) := by
  fun_induction scanRows withMap count fields rows i place bytes with
  | case1 fields rows i place bytes hi hmap =>
    have hlt := Nat.lt_of_lt_of_le hi hcount
    rw [drop_used hi hlt, readRows_cons, Progress.afterToken, hmap]
    simp only [placed_dry hi hcount, List.set_getElem_self]
  | case2 fields rows i place bytes hi e rest hmap =>
    have hlt := Nat.lt_of_lt_of_le hi hcount
    rw [drop_used hi hlt, readRows_cons, Progress.afterToken, hmap]
    simp only [placed_garbled hi hcount, List.set_getElem_self]
  | case3 fields rows i place bytes hi map rest hmap hnone =>
    have := List.getElem?_eq_none_iff.1 hnone
    omega
  | case4 fields rows i place bytes hi map rest hmap row hsome hcells =>
    rw [scanCells_eq map h (hrows row (List.mem_of_getElem? hsome))] at hcells
    cases hcells
  | case5 fields rows i place bytes hi map rest hmap row hsome fields' row' n rest' hcells =>
    rw [scanCells_eq map h (hrows row (List.mem_of_getElem? hsome))] at hcells
    obtain ⟨hlt, rfl⟩ := List.getElem?_eq_some_iff.1 hsome
    rw [drop_used hi hlt, readRows_cons, Progress.afterToken, hmap]
    simp only [readRowsAfterMap, Progress.andThen, Option.some.inj hcells, placed_dry hi hcount]
  | case6 fields rows i place bytes hi map rest hmap row hsome fields' row' e rest' hcells =>
    rw [scanCells_eq map h (hrows row (List.mem_of_getElem? hsome))] at hcells
    obtain ⟨hlt, rfl⟩ := List.getElem?_eq_some_iff.1 hsome
    rw [drop_used hi hlt, readRows_cons, Progress.afterToken, hmap]
    simp only [readRowsAfterMap, Progress.andThen, Option.some.inj hcells, placed_garbled hi hcount]
  | case7 fields rows i place bytes hi map rest hmap row hsome fields' row' rest' hcells ih =>
    have hwidth := hrows row (List.mem_of_getElem? hsome)
    rw [scanCells_eq map h hwidth] at hcells
    replace hcells := Option.some.inj hcells
    obtain ⟨hkinded, hframe, hfits⟩ := fits_readRow h hwidth hcells
    obtain ⟨hlt, rfl⟩ := List.getElem?_eq_some_iff.1 hsome
    have hset : ∀ r ∈ rows.set i row', r.length = fields'.length := by
      intro r hr
      rcases List.mem_or_eq_of_mem_set hr with hr | rfl
      · exact (hrows r hr).trans hframe.symm
      · exact hfits
    have hback : ((rows.set i row').take count).drop (i + 1) = (rows.take count).drop (i + 1) := by
      rw [List.take_set, List.drop_set_of_lt (Nat.lt_succ_self i)]
    -- The next row is read with the fields that this one left, and from the next number on.
    rw [ih hkinded (by rwa [List.length_set]) hset, hback, drop_used hi hlt, readRows_cons,
      Progress.afterToken, hmap]
    simp only [readRowsAfterMap, Progress.andThen, hcells, placed_cons hi hcount]
  | case8 fields rows i place bytes hi => rw [placed_readRows_nil withMap hi]

/-! ## Groups -/

/-- Reads the rows from number `start` on. -/
def scanFrom (g : Group) (start : Nat) (place : RowPlace) (bytes : List UInt8) :
    Option (Progress Group GroupPlace) :=
  (scanRows g.rowsHaveMap g.count g.dictionary (g.rows ++ g.spare) start place bytes).map
    fun p => p.within
      (fun s => { g with dictionary := s.1, rows := s.2.take g.count, spare := s.2.drop g.count }) id

/-- Reads the group's part of a message from `place` on. -/
def scan (g : Group) (map : PresenceMap) (place : GroupPlace) (bytes : List UInt8) :
    Option (Progress Group GroupPlace) :=
  match place with
  | .row i place => g.scanFrom i place bytes
  | .length =>
    if g.length.strays then none
    else
      match g.length.read map bytes with
      | .dry => some ⟨g, .dry .length, bytes⟩
      | .garbled e rest => some ⟨g, .garbled e, rest⟩
      | .done length rest =>
        let g := { g with length }
        let n := g.transmittedLength
        if maxRows < n.toNat then some ⟨g, .garbled (.sequenceTooLong n maxRows), rest⟩
        else (g.resize n.toNat).scanFrom 0 {} rest

variable {g : Group}

theorem Formed.scanFrom_eq (h : g.Formed) (start : Nat) (place : RowPlace) (bytes : List UInt8) :
    g.scanFrom start place bytes = some (g.readFrom start place bytes) := by
  have hlength := congrArg List.length
    (lengths_readRows g.rowsHaveMap g.dictionary (g.rows.drop start) place bytes)
  have hcount : g.count ≤ (g.rows ++ g.spare).length := by
    rw [count, List.length_append]
    exact Nat.le_add_right _ _
  rw [scanFrom, scanRows_eq g.rowsHaveMap h.dictionary hcount h.rectangular, placed, readFrom_eq,
    count, List.take_left, List.drop_left, Option.map_some, Progress.within_within]
  refine congrArg some (Progress.within_congr ?_ fun _ => rfl)
  have hin : (g.rows.take start ++ (readRows g.rowsHaveMap g.dictionary (g.rows.drop start) place
      bytes).state.2).length = g.rows.length := by
    rw [List.length_map, List.length_map, List.length_drop] at hlength
    rw [List.length_append, List.length_take, hlength]
    omega
  simp only [Function.comp, ← hin, List.take_left, List.drop_left]

theorem Formed.scan_eq (h : g.Formed) (map : PresenceMap) (place : GroupPlace)
    (bytes : List UInt8) : g.scan map place bytes = some (g.read map place bytes) := by
  cases place with
  | row i place => exact h.scanFrom_eq i place bytes
  | length =>
    rw [scan, h.length.strays_eq_false, if_neg (by decide), read]
    cases hread : g.length.read map bytes with
    | dry => rfl
    | garbled e rest => rfl
    | done length rest =>
      dsimp only
      split
      · rfl
      · next hmax => exact ((h.put_length hread).resize (Nat.not_lt.1 hmax)).scanFrom_eq 0 {} rest

end Group

end MarketFeed
