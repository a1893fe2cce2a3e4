import MarketFeed.Proofs.Field.Agreement
import MarketFeed.Proofs.Group.Resumption
import MarketFeed.Proofs.PresenceMap

/-!
# Rows and groups on both sides

The rows of a group move one dictionary forward, field by field and row by row. As long as every
field of it agrees with the receiver's, a row that was written is read back, and leaves the two
dictionaries in agreement for the next one.
-/

namespace MarketFeed

/-- The read ends behind these bytes, whatever follows, and leaves the state `s`. -/
def Completes {σ κ : Type} (start : List UInt8 → Progress σ κ) (bytes : List UInt8) (s : σ) :
    Prop :=
  ∀ rest, start (bytes ++ rest) = ⟨s, .done, rest⟩

namespace Completes

variable {α σ τ κ μ : Type}

theorem finished (s : σ) : Completes (fun bytes => (⟨s, .done, bytes⟩ : Progress σ κ)) [] s :=
  fun _ => rfl

theorem afterToken {read : Read α} {next : α → List UInt8 → Progress σ κ} {front back : List UInt8}
    {a : α} {s : σ} (h : read.Takes front a) (hn : Completes (next a) back s) (s₀ : σ) (k : κ) :
    Completes (Progress.afterToken read s₀ k next) (front ++ back) s := fun rest => by
  rw [Progress.afterToken, List.append_assoc, h]
  exact hn rest

theorem andThen {start : List UInt8 → Progress σ κ} {next : σ → List UInt8 → Progress τ μ}
    {front back : List UInt8} {s : σ} {t : τ} (h : Completes start front s)
    (hn : Completes (next s) back t) (f : σ → τ) (g : κ → μ) :
    Completes (Progress.andThen start f g next) (front ++ back) t := fun rest => by
  rw [Progress.andThen, List.append_assoc, h]
  exact hn rest

theorem within {start : List UInt8 → Progress σ κ} {bytes : List UInt8} {s : σ}
    (h : Completes start bytes s) (f : σ → τ) (g : κ → μ) :
    Completes (fun bytes => (start bytes).within f g) bytes (f s) := fun rest => by
  simp only [h rest]
  rfl

end Completes

/-! ## Presence bits -/

/-- Bits handed out in order, none of them below `next`. -/
def BitsFrom : Nat → List (Option Nat) → Prop
  | _, [] => True
  | next, none :: bits => BitsFrom next bits
  | next, some bit :: bits => next ≤ bit ∧ BitsFrom (bit + 1) bits

/-- No bit from `next` on has been set. -/
def PresenceMap.ClearFrom (map : PresenceMap) (next : Nat) : Prop :=
  ∀ bit, next ≤ bit → map.isSet bit = false

theorem PresenceMap.clearFrom_empty (next : Nat) : empty.ClearFrom next := fun _ _ => rfl

namespace Field

/--
A field takes the next bit, if it has one, and leaves those before it alone. In every later map that
does the same its bit shows whether it marked itself.
-/
theorem clearFrom_write {f : Field} {map : PresenceMap} {w : Written} (h : f.write map = .ok w)
    {next : Nat} {bits : List (Option Nat)} (hbits : BitsFrom next (f.bit :: bits))
    (hclear : map.ClearFrom next) :
    ∃ next', next ≤ next' ∧ BitsFrom next' bits ∧ w.map.ClearFrom next' ∧
      (∀ i < next, w.map.isSet i = map.isSet i) ∧
      ∀ map' : PresenceMap, (∀ i < next', map'.isSet i = w.map.isSet i) →
        f.isMarked map' = f.marks := by
  have hset := isSet_write h
  cases hbit : f.bit with
  | none =>
    have hmarks : f.marks = false := by
      rw [← isMarked_write h (by rw [isMarked, hbit]; rfl), isMarked, hbit]
      rfl
    rw [hbit] at hbits
    simp only [hbit, hmarks, Bool.false_and, Bool.or_false] at hset
    refine ⟨next, Nat.le_refl _, hbits, fun i hi => ?_, fun i _ => hset i, fun map' _ => ?_⟩
    · rw [hset, hclear i hi]
    · rw [isMarked, hbit, hmarks]
      rfl
  | some bit =>
    rw [hbit] at hbits
    simp only [hbit, Option.some_beq_some] at hset
    obtain ⟨hle, hbits⟩ := hbits
    -- Only the bit itself can have changed.
    have hother (i : Nat) (hi : i ≠ bit) : w.map.isSet i = map.isSet i := by
      rw [hset, beq_false_of_ne fun heq => hi heq.symm, Bool.and_false, Bool.or_false]
    refine ⟨bit + 1, by omega, hbits, fun i hi => ?_, fun i hi => hother i (by omega),
      fun map' hmap' => ?_⟩
    · rw [hother i (by omega), hclear i (by omega)]
    · rw [isMarked, hbit, Option.any_some, hmap' bit (by omega), hset, hclear bit hle]
      simp

theorem frame_write {f : Field} {map : PresenceMap} {w : Written} (h : f.write map = .ok w) :
    w.field.frame = f.frame := by
  obtain ⟨-, -, -, hfield⟩ := write_eq_ok h
  rw [hfield]
  unfold remembering
  cases f.decl.op with
  | none => rfl
  | constant => rfl
  | copy => dsimp only; split <;> rfl
  | increment => dsimp only; split <;> rfl
  | delta => dsimp only; split <;> rfl

theorem current_write {f : Field} {map : PresenceMap} {w : Written} (h : f.write map = .ok w) :
    w.field.current = f.current := by
  obtain ⟨-, -, -, hfield⟩ := write_eq_ok h
  rw [hfield]
  unfold remembering
  cases f.decl.op with
  | none => rfl
  | constant => rfl
  | copy => dsimp only; split <;> rfl
  | increment => dsimp only; split <;> rfl
  | delta => dsimp only; split <;> rfl

end Field

/-! ## Rows -/

namespace Row

/-- Cell by cell, the received row is what the one sent stands for. -/
def Conveys : List Decl → Row → Row → Prop
  | [], [], [] => True
  | d :: ds, sent :: row, received :: row' => d.Conveys sent received ∧ Conveys ds row row'
  | _, _, _ => False

/-- Every cell of the row could be sent as text. -/
def IsText (ds : List Decl) (row : Row) : Prop := ∀ p ∈ ds.zip row, p.1.IsText p.2

instance (ds : List Decl) (row : Row) : Decidable (IsText ds row) :=
  inferInstanceAs (Decidable (∀ p ∈ ds.zip row, p.1.IsText p.2))

theorem Conveys.length_received {ds : List Decl} {row row' : Row} (h : Conveys ds row row') :
    row'.length = ds.length := by
  induction ds generalizing row row' with
  | nil =>
    cases row <;> cases row' <;> first | rfl | exact h.elim
  | cons d ds ih =>
    cases row with
    | nil => exact h.elim
    | cons sent row =>
      cases row' with
      | nil => exact h.elim
      | cons received row' => exact congrArg (· + 1) (ih h.2)

theorem length_of_conveys {ds : List Decl} {rows rows' : List Row}
    (h : List.Forall₂ (Conveys ds) rows rows') : ∀ row ∈ rows', row.length = ds.length := by
  induction h with
  | nil => simp
  | cons h _ ih =>
    intro row hrow
    rcases List.mem_cons.1 hrow with rfl | hrow
    · exact h.length_received
    · exact ih row hrow

end Row

namespace Group

/-- What a dictionary has to be for rows to be read back from it. -/
structure WellDeclared (fields : List Field) (next : Nat) : Prop where
  constants : ∀ f ∈ fields, f.decl.HasConstant
  bits : BitsFrom next (fields.map Field.bit)

theorem writeCells_cons_eq_ok {f : Field} {fields fields' : List Field} {entry : Entry} {row : Row}
    {map map' : PresenceMap} {bytes : List UInt8}
    (h : writeCells (f :: fields) (entry :: row) map = (.ok (map', bytes), fields')) :
    f.decl.kind ≠ .sequence ∧ ∃ w bytes' fields'', (f.put entry).write map = .ok w ∧
      writeCells fields row w.map = (.ok (map', bytes'), fields'') ∧
      bytes = w.bytes ++ bytes' ∧ fields' = w.field :: fields'' := by
  by_cases hkind : f.decl.kind = .sequence
  · rw [writeCells, if_pos hkind] at h
    cases h
  refine ⟨hkind, ?_⟩
  simp only [writeCells, if_neg hkind] at h
  split at h
  · cases h
  · next w hw =>
    split at h
    · cases h
    · next map'' bytes' fields'' htail =>
      simp only [Prod.mk.injEq, Except.ok.injEq] at h
      obtain ⟨⟨rfl, rfl⟩, rfl⟩ := h
      exact ⟨w, bytes', fields'', hw, htail, rfl, rfl⟩

theorem frame_writeCells (fields : List Field) (row : Row) (map : PresenceMap) :
    (writeCells fields row map).2.map Field.frame = fields.map Field.frame := by
  induction fields generalizing row map with
  | nil => rfl
  | cons f fields ih =>
    cases row with
    | nil => rfl
    | cons entry row =>
      simp only [writeCells]
      split
      · rfl
      split
      · rfl
      · next w hw =>
        have hframe := Field.frame_write hw
        have := ih row w.map
        split
        all_goals
          next htail =>
          rw [htail] at this
          simpa using ⟨hframe, this⟩

theorem clearFrom_writeCells {fields fields' : List Field} {row : Row} {map map' : PresenceMap}
    {bytes : List UInt8} (h : writeCells fields row map = (.ok (map', bytes), fields')) {next : Nat}
    (hbits : BitsFrom next (fields.map Field.bit)) (hclear : map.ClearFrom next) :
    ∀ i < next, map'.isSet i = map.isSet i := by
  induction fields generalizing row map bytes fields' next with
  | nil =>
    simp only [writeCells, Prod.mk.injEq, Except.ok.injEq] at h
    obtain ⟨⟨rfl, -⟩, -⟩ := h
    exact fun _ _ => rfl
  | cons f fields ih =>
    cases row with
    | nil =>
      simp only [writeCells, Prod.mk.injEq, Except.ok.injEq] at h
      obtain ⟨⟨rfl, -⟩, -⟩ := h
      exact fun _ _ => rfl
    | cons entry row =>
      obtain ⟨-, w, bytes', fields'', hw, htail, -, -⟩ := writeCells_cons_eq_ok h
      obtain ⟨next', hle, hbits', hclear', hbelow, -⟩ := Field.clearFrom_write hw hbits hclear
      intro i hi
      rw [ih htail hbits' hclear' i (by omega), hbelow i hi]

/-- A row that was written is read back into any row of its length. -/
theorem readCells_completes {fields rfields : List Field}
    (hagree : List.Forall₂ Field.Agrees fields rfields) {next : Nat}
    (hd : WellDeclared fields next) {row : Row} (hrow : row.length = fields.length)
    (ht : row.IsText (fields.map Field.decl)) {map map' : PresenceMap} (hclear : map.ClearFrom next)
    {bytes : List UInt8} {fields' : List Field}
    (h : writeCells fields row map = (.ok (map', bytes), fields')) {sent : PresenceMap}
    (hsent : ∀ f ∈ fields, f.isMarked sent = f.isMarked map') {rrow : Row}
    (hrrow : rrow.length = fields.length) :
    ∃ rfields' rrow', Completes (readCells sent rfields rrow) bytes (rfields', rrow') ∧
      List.Forall₂ Field.Agrees fields' rfields' ∧
      Row.Conveys (fields.map Field.decl) row rrow' := by
  induction hagree generalizing next row map bytes fields' rrow with
  | nil =>
    obtain rfl := List.eq_nil_of_length_eq_zero hrow
    obtain rfl := List.eq_nil_of_length_eq_zero hrrow
    simp only [writeCells, Prod.mk.injEq, Except.ok.injEq] at h
    obtain ⟨⟨rfl, rfl⟩, rfl⟩ := h
    exact ⟨[], [], .finished _, .nil, trivial⟩
  | @cons f r fields rfields hfr hagree ih =>
    obtain ⟨entry, row, rfl⟩ := List.exists_cons_of_length_eq_add_one hrow
    obtain ⟨rentry, rrow, rfl⟩ := List.exists_cons_of_length_eq_add_one hrrow
    obtain ⟨hkind, w, bytes', fields'', hw, htail, rfl, rfl⟩ := writeCells_cons_eq_ok h
    obtain ⟨next', hle, hbits', hclear', hbelow, hmarked⟩ :=
      Field.clearFrom_write hw hd.bits hclear
    have hmarks : r.isMarked sent = (f.put entry).marks := by
      rw [← hmarked map' (clearFrom_writeCells htail hbits' hclear'), Field.isMarked, hfr.bit]
      exact hsent f (by simp)
    obtain ⟨r', hread, hagree', hconveys⟩ := (hfr.put entry).read_takes (hd.constants f (by simp))
      (ht (f.decl, entry) (by simp)) hw hmarks
    obtain ⟨rfields', rrow', hcells, hagrees, hrows⟩ := ih
      ⟨fun f hf => hd.constants f (List.mem_cons_of_mem _ hf), hbits'⟩ (by simpa using hrow)
      (fun p hp => ht p (List.mem_cons_of_mem _ hp)) hclear' htail
      (fun f hf => hsent f (List.mem_cons_of_mem _ hf)) (by simpa using hrrow)
    refine ⟨r' :: rfields', r'.current :: rrow', ?_, .cons hagree' hagrees, hconveys, hrows⟩
    rw [readCells_cons, readCell_eq (hfr.decl ▸ hkind)]
    exact .afterToken hread (hcells.within _ _) _ _

/-! ## The rows of a group -/

theorem frame_of_agrees {fields rfields : List Field}
    (h : List.Forall₂ Field.Agrees fields rfields) :
    rfields.map Field.frame = fields.map Field.frame := by
  induction h with
  | nil => rfl
  | cons h _ ih => simp only [List.map_cons, ih, Field.frame, h.decl, h.bit]

theorem decls_of_frames {fields fields' : List Field}
    (h : fields'.map Field.frame = fields.map Field.frame) :
    fields'.map Field.decl = fields.map Field.decl := by
  have := congrArg (List.map Prod.fst) h
  simpa [Field.frame, Function.comp_def] using this

theorem bits_of_frames {fields fields' : List Field}
    (h : fields'.map Field.frame = fields.map Field.frame) :
    fields'.map Field.bit = fields.map Field.bit := by
  have := congrArg (List.map Prod.snd) h
  simpa [Field.frame, Function.comp_def] using this

theorem WellDeclared.of_frames {fields fields' : List Field} {next : Nat}
    (h : WellDeclared fields next) (hf : fields'.map Field.frame = fields.map Field.frame) :
    WellDeclared fields' next where
  constants f hf' := by
    have hmem : f.decl ∈ fields.map Field.decl := by
      rw [← decls_of_frames hf]
      exact List.mem_map_of_mem hf'
    obtain ⟨f', hf'', heq⟩ := List.mem_map.1 hmem
    rw [← heq]
    exact h.constants f' hf''
  bits := by
    rw [bits_of_frames hf]
    exact h.bits

theorem isMarked_congr {f : Field} {map map' : PresenceMap} (h : ∀ i, map'.isSet i = map.isSet i) :
    f.isMarked map' = f.isMarked map := by
  simp only [Field.isMarked, funext h]

/-- The map of a row is read back, as far as its fields look at it. -/
theorem readRowMap_takes {withMap : Bool} {fields : List Field}
    (hmap : withMap = fields.any (·.bit.isSome)) (map : PresenceMap) :
    ∃ sent, (readRowMap withMap {}).Takes (if withMap then map.write else []) sent ∧
      ∀ f ∈ fields, f.isMarked sent = f.isMarked map := by
  cases withMap with
  | true => exact ⟨map.received, map.write_takes, fun f _ => isMarked_congr map.isSet_received⟩
  | false =>
    refine ⟨.empty, .pure _, fun f hf => ?_⟩
    have hnone := List.any_eq_false.1 hmap.symm f hf
    rw [Bool.not_eq_true, Option.isSome_eq_false_iff, Option.isNone_iff_eq_none] at hnone
    simp [Field.isMarked, hnone]

theorem writeRows_cons_eq_ok {withMap : Bool} {fields fields' : List Field} {row : Row}
    {rows : List Row} {bytes : List UInt8}
    (h : writeRows withMap fields (row :: rows) = (.ok bytes, fields')) :
    ∃ map front back middle, writeCells fields row .empty = (.ok (map, front), middle) ∧
      writeRows withMap middle rows = (.ok back, fields') ∧
      bytes = (if withMap then map.write else []) ++ (front ++ back) := by
  simp only [writeRows] at h
  split at h
  · cases h
  · next map front middle hrow =>
    split at h
    · cases h
    · next back fields'' htail =>
      simp only [Prod.mk.injEq, Except.ok.injEq] at h
      obtain ⟨rfl, rfl⟩ := h
      exact ⟨map, front, back, middle, hrow, htail, by rw [List.append_assoc]⟩

theorem frame_writeRows (withMap : Bool) (fields : List Field) (rows : List Row) :
    (writeRows withMap fields rows).2.map Field.frame = fields.map Field.frame := by
  induction rows generalizing fields with
  | nil => rfl
  | cons row rows ih =>
    have hrow := frame_writeCells fields row .empty
    simp only [writeRows]
    split
    · next hcells => rwa [hcells] at hrow
    · next map front middle hcells =>
      rw [hcells] at hrow
      have := ih middle
      split
      all_goals
        next htail =>
        rw [htail] at this
        exact this.trans hrow

theorem readRows_completes {withMap : Bool} {fields rfields : List Field}
    (hagree : List.Forall₂ Field.Agrees fields rfields) (hd : WellDeclared fields 0)
    (hmap : withMap = fields.any (·.bit.isSome)) {rows : List Row}
    (hrows : ∀ row ∈ rows, row.length = fields.length)
    (ht : ∀ row ∈ rows, Row.IsText (fields.map Field.decl) row) {bytes : List UInt8}
    {fields' : List Field} (h : writeRows withMap fields rows = (.ok bytes, fields'))
    {rrows : List Row} (hlen : rrows.length = rows.length)
    (hrrows : ∀ row ∈ rrows, row.length = fields.length) :
    ∃ rfields' rrows', Completes (readRows withMap rfields rrows {}) bytes (rfields', rrows') ∧
      List.Forall₂ Field.Agrees fields' rfields' ∧
      List.Forall₂ (Row.Conveys (fields.map Field.decl)) rows rrows' := by
  induction rows generalizing fields rfields bytes rrows with
  | nil =>
    obtain rfl := List.eq_nil_of_length_eq_zero hlen
    simp only [writeRows, Prod.mk.injEq, Except.ok.injEq] at h
    obtain ⟨rfl, rfl⟩ := h
    exact ⟨rfields, [], .finished _, hagree, .nil⟩
  | cons row rows ih =>
    obtain ⟨rrow, rrows, rfl⟩ := List.exists_cons_of_length_eq_add_one hlen
    obtain ⟨map, front, back, middle, hcells, htail, rfl⟩ := writeRows_cons_eq_ok h
    obtain ⟨sent, hsent, hmarked⟩ := readRowMap_takes hmap map
    obtain ⟨rmiddle, rrow', hread, hagree', hconveys⟩ := readCells_completes hagree hd
      (hrows row (by simp)) (ht row (by simp)) (PresenceMap.clearFrom_empty 0) hcells hmarked
      (hrrows rrow (by simp))
    -- The dictionary that the next row meets declares what it did before.
    have hframe : middle.map Field.frame = fields.map Field.frame := by
      have := frame_writeCells fields row .empty
      rwa [hcells] at this
    have hdecls := decls_of_frames hframe
    have hlength : middle.length = fields.length := by simpa using congrArg List.length hframe
    have hmap' : withMap = middle.any (·.bit.isSome) := by
      have := congrArg (List.any · Option.isSome) (bits_of_frames hframe)
      simp only [List.any_map] at this
      rw [hmap]
      exact this.symm
    obtain ⟨rfields', rrows', hreads, hagrees, hconveyss⟩ := ih hagree' (hd.of_frames hframe) hmap'
      (fun row hr => (hrows row (List.mem_cons_of_mem _ hr)).trans hlength.symm)
      (fun row hr => by
        rw [hdecls]
        exact ht row (List.mem_cons_of_mem _ hr)) htail (by simpa using hlen)
      (fun row hr => (hrrows row (List.mem_cons_of_mem _ hr)).trans hlength.symm)
    rw [hdecls] at hconveyss
    refine ⟨rfields', rrow' :: rrows', ?_, hagrees, .cons hconveys hconveyss⟩
    rw [readRows_cons]
    refine .afterToken hsent ?_ _ _
    rw [readRowsAfterMap, readRow_zero]
    exact .andThen hread (hreads.within _ _) _ _

end Group

end MarketFeed
