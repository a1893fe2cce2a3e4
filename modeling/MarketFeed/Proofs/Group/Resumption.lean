import MarketFeed.Message.Decode
import MarketFeed.Proofs.Progress
import MarketFeed.Proofs.Wire.Yields

/-!
# Groups and messages can be cut anywhere

The readers of a row, of the rows of a group, of an item and of a whole message are resumable from
their beginning: `Message.read_resumable`. The argument follows the readers inward: each is a token
or a smaller reader in front of itself.
-/

namespace MarketFeed

theorem Progress.within_id {σ κ : Type} (p : Progress σ κ) {f : σ → σ} {g : κ → κ}
    (hf : ∀ s, f s = s) (hg : ∀ k, g k = k) : p.within f g = p := by
  obtain ⟨s, ending, rest⟩ := p
  cases ending <;> simp [within, Ending.mapPlace, hf, hg]

namespace Group

/-! ## Rows -/

theorem readRow_zero (map : PresenceMap) (fields : List Field) (row : Row) :
    readRow map 0 fields row = readCells map fields row := by
  funext bytes
  exact Progress.within_id _ (fun _ => rfl) Nat.zero_add

theorem readCell_eq {f : Field} (h : f.decl.kind ≠ .sequence) (map : PresenceMap) :
    readCell f map = f.read map := if_neg h

theorem readCell_eq_done {f f' : Field} {map : PresenceMap} {bytes rest : List UInt8}
    (h : readCell f map bytes = .done f' rest) :
    f.decl.kind ≠ .sequence ∧ f.read map bytes = .done f' rest := by
  by_cases hkind : f.decl.kind = .sequence
  · rw [readCell, if_pos hkind] at h
    cases h
  · exact ⟨hkind, by rwa [readCell_eq hkind] at h⟩

theorem readCell_local (f : Field) (map : PresenceMap) : (readCell f map).Local :=
  .ite (.fail _) (f.read_local map)

theorem readCells_cons (map : PresenceMap) (f : Field) (fields : List Field) (entry : Entry)
    (row : Row) :
    readCells map (f :: fields) (entry :: row) =
      Progress.afterToken (readCell f map) (f :: fields, entry :: row) 0 fun f bytes =>
        (readCells map fields row bytes).within
          (fun (fields, row) => (f :: fields, f.current :: row)) (· + 1) := by
  funext bytes
  simp only [readCells, Progress.afterToken]
  cases readCell f map bytes <;> rfl

theorem readRow_succ (map : PresenceMap) (n : Nat) (f : Field) (fields : List Field)
    (entry : Entry) (row : Row) (bytes : List UInt8) :
    readRow map (n + 1) (f :: fields) (entry :: row) bytes =
      (readRow map n fields row bytes).within
        (fun (fields, row) => (f :: fields, entry :: row)) (· + 1) := by
  simp only [readRow, Progress.within_within, List.drop_succ_cons, List.take_succ_cons]
  congr 1
  funext k
  simp only [Function.comp]
  omega

theorem readCells_resumable (map : PresenceMap) (fields : List Field) (row : Row) :
    Resumable (readCells map fields row) fun s n => readRow map n s.1 s.2 := by
  induction fields generalizing row with
  | nil => exact .finished ([], row) _
  | cons f fields ih =>
    cases row with
    | nil => exact .finished (f :: fields, []) _
    | cons entry row =>
      rw [readCells_cons]
      refine .afterToken (readCell_local f map) (fun f _ _ _ => ?_) ?_
      · exact (ih row).within fun s n _ _ _ more => readRow_succ map n f s.1 f.current s.2 more
      · rw [← readCells_cons, readRow_zero]

/-! ## The rows of a group -/

/-- The place in a list of rows that is this one in the rows behind the first `n`. -/
def shiftPlace (n : Nat) : GroupPlace → GroupPlace
  | .length => .length
  | .row i place => .row (n + i) place

theorem shiftPlace_shiftPlace (m n : Nat) (place : GroupPlace) :
    shiftPlace m (shiftPlace n place) = shiftPlace (m + n) place := by
  cases place with
  | length => rfl
  | row i place => rw [shiftPlace, shiftPlace, shiftPlace, Nat.add_assoc]

/-- Goes on with rows at a place in one of them. -/
def resumeRows (withMap : Bool) (s : List Field × List Row) (place : GroupPlace)
    (bytes : List UInt8) : Progress (List Field × List Row) GroupPlace :=
  match place with
  | .length => ⟨s, .done, bytes⟩
  | .row i place =>
    (readRows withMap s.1 (s.2.drop i) place bytes).within
      (fun (fields, rows) => (fields, s.2.take i ++ rows)) (shiftPlace i)

/-- What a row keeps of its map while the bytes run dry. -/
def keptMap (withMap : Bool) (map : PresenceMap) : Option PresenceMap :=
  if withMap then some map else none

/-- What follows the map of a row: its fields, and the rows behind it. -/
def readRowsAfterMap (withMap : Bool) (fields : List Field) (row : Row) (rows : List Row)
    (start : Nat) (map : PresenceMap) : List UInt8 → Progress (List Field × List Row) GroupPlace :=
  Progress.andThen (readRow map start fields row)
    (fun s => (s.1, s.2 :: rows)) (fun n => .row 0 ⟨keptMap withMap map, n⟩)
    fun s bytes => (readRows withMap s.1 rows {} bytes).within
      (fun (fields, rows) => (fields, s.2 :: rows)) (shiftPlace 1)

theorem readRows_cons (withMap : Bool) (fields : List Field) (row : Row) (rows : List Row)
    (place : RowPlace) :
    readRows withMap fields (row :: rows) place =
      Progress.afterToken (readRowMap withMap place) (fields, row :: rows) (.row 0 place)
        (readRowsAfterMap withMap fields row rows place.field) := by
  funext bytes
  simp only [readRows, Progress.afterToken, readRowsAfterMap, Progress.andThen]
  cases readRowMap withMap place bytes with
  | dry => rfl
  | garbled e rest => rfl
  | done map rest =>
    simp only
    rcases readRow map place.field fields row rest with ⟨⟨fields, row⟩, ending, rest⟩
    cases ending with
    | dry n => rfl
    | garbled e => rfl
    | done =>
      simp only
      congr 1
      funext k
      cases k <;> simp [shiftPlace, Nat.add_comm]

theorem readRowMap_local (withMap : Bool) (place : RowPlace) :
    (readRowMap withMap place).Local := by
  unfold readRowMap
  cases place.map with
  | some map => exact .pure map
  | none => exact .ite PresenceMap.read_local (.pure _)

/-- A row that is gone on with has the map that was read for it. -/
theorem readRows_keptMap {withMap : Bool} {map : PresenceMap} {bytes rest : List UInt8}
    (h : readRowMap withMap {} bytes = .done map rest) (fields : List Field) (row : Row)
    (rows : List Row) (n : Nat) :
    readRows withMap fields (row :: rows) ⟨keptMap withMap map, n⟩ =
      readRowsAfterMap withMap fields row rows n map := by
  have hkept : readRowMap withMap ⟨keptMap withMap map, n⟩ = pure map := by
    cases withMap with
    | true => rfl
    | false =>
      obtain ⟨rfl, -⟩ := Outcome.done.inj h
      rfl
  rw [readRows_cons, hkept]
  rfl

theorem resumeRows_shift (withMap : Bool) (s : List Field × List Row) (row : Row)
    (place : GroupPlace) (hplace : place ≠ .length) (bytes : List UInt8) :
    resumeRows withMap (s.1, row :: s.2) (shiftPlace 1 place) bytes =
      (resumeRows withMap s place bytes).within (fun (fields, rows) => (fields, row :: rows))
        (shiftPlace 1) := by
  cases place with
  | length => exact absurd rfl hplace
  | row i place =>
    simp only [resumeRows, shiftPlace, Nat.add_comm 1 i, List.drop_succ_cons, List.take_succ_cons,
      Progress.within_within]
    congr 1
    funext k
    rw [Function.comp_apply, shiftPlace_shiftPlace, Nat.add_comm]

/-- Rows run dry in a row, never in front of the length. -/
theorem ending_readRows_ne (withMap : Bool) (fields : List Field) (rows : List Row)
    (place : RowPlace) (bytes : List UInt8) :
    (readRows withMap fields rows place bytes).ending ≠ .dry .length := by
  induction rows generalizing fields place bytes with
  | nil => simp [readRows]
  | cons row rows ih =>
    rw [readRows_cons, Progress.afterToken]
    cases readRowMap withMap place bytes with
    | garbled e rest => simp
    | dry => simp
    | done map middle =>
      simp only [readRowsAfterMap, Progress.andThen]
      rcases readRow map place.field fields row middle with ⟨s, ending, rest⟩
      cases ending with
      | garbled e => simp
      | dry n => simp
      | done =>
        have := ih s.1 {} rest
        simp only [Progress.within]
        cases hk : (readRows withMap s.1 rows {} rest).ending with
        | done => simp [Ending.mapPlace]
        | garbled e => simp [Ending.mapPlace]
        | dry k =>
          cases k with
          | length => exact absurd hk this
          | row i place => simp [Ending.mapPlace, shiftPlace]

theorem readRows_resumable (withMap : Bool) (fields : List Field) (rows : List Row) :
    Resumable (readRows withMap fields rows {}) (resumeRows withMap) := by
  induction rows generalizing fields with
  | nil => exact .finished (fields, []) _
  | cons row rows ih =>
    rw [readRows_cons]
    refine .afterToken (readRowMap_local withMap {}) (fun map bytes rest hmap => ?_) ?_
    · simp only [readRowsAfterMap, readRow_zero]
      refine (readCells_resumable map fields row).andThen (fun s => ?_) fun s n _ _ _ => ?_
      · refine (ih s.1).within fun s' k _ _ hdry more => ?_
        have hk : k ≠ .length := by
          rintro rfl
          exact ending_readRows_ne withMap s.1 rows {} _ (congrArg Progress.ending hdry)
        exact resumeRows_shift withMap s' s.2 k hk more
      · funext more
        have h := congrFun (readRows_keptMap hmap s.1 s.2 rows n) more
        simp only [readRowsAfterMap] at h
        rw [← h]
        exact Progress.within_id _ (fun _ => rfl) fun k => by cases k <;> simp [shiftPlace]
    · funext more
      rw [← readRows_cons]
      exact Progress.within_id _ (fun _ => rfl) fun k => by cases k <;> simp [shiftPlace]

/-! ## What the dictionary keeps -/

theorem frame_readCells (map : PresenceMap) (fields : List Field) (row : Row)
    (bytes : List UInt8) :
    (readCells map fields row bytes).state.1.map Field.frame = fields.map Field.frame := by
  induction fields generalizing row bytes with
  | nil => rfl
  | cons f fields ih =>
    cases row with
    | nil => rfl
    | cons entry row =>
      rw [readCells_cons]
      refine Progress.state_afterToken (J := fun s : List Field × Row =>
        s.1.map Field.frame = (f :: fields).map Field.frame) rfl fun f' rest hread => ?_
      have hframe := (f.read_yields_frame map).of_done (readCell_eq_done hread).2
      simp only [Progress.within, List.map_cons, hframe, ih]

theorem frame_readRow (map : PresenceMap) (start : Nat) (fields : List Field) (row : Row)
    (bytes : List UInt8) :
    (readRow map start fields row bytes).state.1.map Field.frame = fields.map Field.frame := by
  simp only [readRow, Progress.within, List.map_append, frame_readCells]
  rw [← List.map_append, List.take_append_drop]

theorem frame_readRows (withMap : Bool) (fields : List Field) (rows : List Row)
    (place : RowPlace) (bytes : List UInt8) :
    (readRows withMap fields rows place bytes).state.1.map Field.frame =
      fields.map Field.frame := by
  induction rows generalizing fields place bytes with
  | nil => rfl
  | cons row rows ih =>
    let Framed (s : List Field × List Row) := s.1.map Field.frame = fields.map Field.frame
    rw [readRows_cons]
    refine Progress.state_afterToken (J := Framed) rfl fun map middle _ => ?_
    have hrow := frame_readRow map place.field fields row middle
    exact Progress.state_andThen (J := Framed) hrow fun rest => (ih _ {} rest).trans hrow

theorem rowsHaveMap_eq (g : Group) :
    g.rowsHaveMap = (g.dictionary.map Field.frame).any (·.2.isSome) := by
  rw [List.any_map]
  rfl

/-! ## Groups -/

/-- The rest of a group behind its length. -/
def readBody (g : Group) (length : Field) (bytes : List UInt8) : Progress Group GroupPlace :=
  let g := { g with length }
  if maxRows < g.transmittedLength.toNat then
    ⟨g, .garbled (.sequenceTooLong g.transmittedLength maxRows), bytes⟩
  else (g.resize g.transmittedLength.toNat).readFrom 0 {} bytes

theorem read_length (g : Group) (map : PresenceMap) :
    g.read map .length = Progress.afterToken (g.length.read map) g .length g.readBody := by
  funext bytes
  simp only [read, Progress.afterToken]
  cases g.length.read map bytes <;> rfl

theorem readFrom_eq (g : Group) (start : Nat) (place : RowPlace) (bytes : List UInt8) :
    g.readFrom start place bytes =
      (readRows g.rowsHaveMap g.dictionary (g.rows.drop start) place bytes).within
        (fun s => { g with dictionary := s.1, rows := g.rows.take start ++ s.2 })
        (shiftPlace start) := by
  unfold readFrom
  congr 1

theorem readFrom_resumable (g : Group) (map : PresenceMap) :
    Resumable (g.readFrom 0 {}) fun g place => g.read map place := by
  rw [funext (g.readFrom_eq 0 {})]
  refine (readRows_resumable g.rowsHaveMap g.dictionary g.rows).within fun s k bytes _ h more => ?_
  have hframe := frame_readRows g.rowsHaveMap g.dictionary g.rows {} bytes
  have hk := ending_readRows_ne g.rowsHaveMap g.dictionary g.rows {} bytes
  rw [h] at hframe hk
  cases k with
  | length => exact absurd rfl hk
  | row i place =>
    have hmap : Group.rowsHaveMap { g with dictionary := s.1, rows := s.2 } = g.rowsHaveMap := by
      rw [rowsHaveMap_eq, rowsHaveMap_eq]
      exact congrArg (List.any · _) hframe
    simp only [shiftPlace, Nat.zero_add, read, readFrom_eq, List.take_zero, List.nil_append, hmap,
      resumeRows, Progress.within_within]
    congr 1
    funext k
    cases k <;> simp [Function.comp, shiftPlace]

theorem read_resumable (g : Group) (map : PresenceMap) :
    Resumable (g.read map .length) fun g place => g.read map place := by
  rw [read_length]
  refine .afterToken (g.length.read_local map) (fun length _ _ _ => ?_) (g.read_length map)
  by_cases h : maxRows < ({ g with length } : Group).transmittedLength.toNat
  · have : g.readBody length = fun bytes => ⟨{ g with length },
        .garbled (.sequenceTooLong (Group.transmittedLength { g with length }) maxRows), bytes⟩ := by
      funext bytes
      simp only [readBody, if_pos h]
    rw [this]
    exact .refused _ _ _
  · have : g.readBody length = Group.readFrom (Group.resize { g with length }
        (Group.transmittedLength { g with length }).toNat) 0 {} := by
      funext bytes
      simp only [readBody, if_neg h]
    rw [this]
    exact readFrom_resumable _ map

end Group

/-! ## Items and messages -/

namespace Item

theorem read_scalar (f : Field) (map : PresenceMap) (place : GroupPlace) :
    (scalar f).read map place =
      Progress.afterToken (f.read map) (scalar f) .length fun f bytes =>
        ⟨scalar f, .done, bytes⟩ := by
  funext bytes
  simp only [read, Progress.afterToken]
  cases f.read map bytes <;> rfl

theorem read_resumable (i : Item) (map : PresenceMap) :
    Resumable (i.read map .length) fun i place => i.read map place := by
  cases i with
  | scalar f =>
    rw [read_scalar]
    exact .afterToken (f.read_local map) (fun f _ _ _ => .finished _ _) (read_scalar f map _)
  | group g => exact (g.read_resumable map).within fun _ _ _ _ _ _ => rfl

/-- Goes on with a list of items at a place in one of them. -/
def resumeAll (map : PresenceMap) (items : List Item) (place : Place) (bytes : List UInt8) :
    Progress (List Item) Place :=
  (readAll map (items.drop place.item) place.group bytes).within
    (fun rest => items.take place.item ++ rest) fun p => { p with item := place.item + p.item }

theorem readAll_cons (map : PresenceMap) (i : Item) (items : List Item) (place : GroupPlace) :
    readAll map (i :: items) place =
      Progress.andThen (i.read map place) (· :: items) (⟨0, ·⟩) fun i bytes =>
        (readAll map items .length bytes).within (i :: ·) fun p => { p with item := p.item + 1 } := by
  funext bytes
  simp only [readAll, Progress.andThen]
  rcases i.read map place bytes with ⟨i, ending, rest⟩
  cases ending <;> rfl

theorem readAll_resumable (map : PresenceMap) (items : List Item) :
    Resumable (readAll map items .length) (resumeAll map) := by
  induction items with
  | nil => exact .finished [] _
  | cons i items ih =>
    rw [readAll_cons]
    refine (i.read_resumable map).andThen (fun i => ?_) fun i k _ _ _ => ?_
    · refine ih.within fun items p _ _ _ more => ?_
      simp only [resumeAll, List.drop_succ_cons, List.take_succ_cons, Progress.within_within]
      congr 1
      funext q
      simp only [Function.comp, Place.mk.injEq, and_true]
      omega
    · rw [← readAll_cons]
      funext more
      exact Progress.within_id _ (fun _ => rfl) fun p => by simp

end Item

namespace Message

theorem read_resumable (m : Message) (map : PresenceMap) :
    Resumable (m.read map {}) fun m place => m.read map place := by
  refine (Item.readAll_resumable map m.items).within fun items p _ _ _ more => ?_
  simp only [read, Item.resumeAll, Progress.within_within, List.take_zero, List.nil_append,
    Nat.zero_add]
  rfl

end Message

end MarketFeed
