import MarketFeed.Proofs.Stream.Slots
import Mathlib.Data.List.Induction

/-!
# What a new row holds

Rows are made when they are first needed, as copies of the dictionary, and the dictionary takes up
every entry that is written. So a row made before the first write holds nothing, and one that is made
later holds, field by field, what was written last until then: `Group.cell?_after`. Only a row
without a value for a field that needs one is refused: `Group.write_missing`.
-/

namespace MarketFeed

/-! ## What is written over -/

/-- The front of a list written over. -/
def overlay {α : Type} (old front : List α) : List α := front ++ old.drop front.length

theorem getElem?_overlay {α : Type} (old front : List α) (j : Nat) :
    (overlay old front)[j]? = front[j]?.or old[j]? := by
  rw [overlay]
  by_cases hj : j < front.length
  · rw [List.getElem?_append_left hj, List.getElem?_eq_getElem hj, Option.some_or]
  · rw [List.getElem?_append_right (Nat.not_lt.1 hj), List.getElem?_drop,
      List.getElem?_eq_none (Nat.not_lt.1 hj), Option.none_or]
    congr 1
    omega

/-- At each place the last front that reaches it is left. -/
theorem getElem?_foldl_overlay {α : Type} (fronts : List (List α)) (old : List α) (j : Nat) :
    (fronts.foldl overlay old)[j]? = (fronts.filterMap (·[j]?)).getLast?.or old[j]? := by
  induction fronts generalizing old with
  | nil => rfl
  | cons front fronts ih =>
    rw [List.foldl_cons, ih, getElem?_overlay]
    rw [List.filterMap_cons]
    cases front[j]? with
    | none => rfl
    | some a =>
      simp only [List.getLast?_cons]
      cases (fronts.filterMap (·[j]?)).getLast? <;> rfl

namespace Group

/-- The entries of a row that the dictionary takes up: up to the one that fails, if one does. -/
def takenCells : List Field → Row → PresenceMap → Row
  | f :: fields, entry :: row, map =>
    if f.decl.kind = .sequence then []
    else
      match (f.put entry).write map with
      | .error _ => [entry]
      | .ok w => entry :: takenCells fields row w.map
  | _, _, _ => []

def takenRows : List Field → List Row → List Row
  | _, [] => []
  | fields, row :: rows =>
    takenCells fields row .empty ::
      match writeCells fields row .empty with
      | (.error _, _) => []
      | (.ok _, fields) => takenRows fields rows

/-- The rows that a write takes up into the dictionary, each as far as it gets. -/
def taken (g : Group) (map : PresenceMap) : List Row :=
  if maxRows < g.transmittedLength.toNat ∨
      (g.rows ++ g.spare).length < g.transmittedLength.toNat then []
  else
    match g.length.write map with
    | .error _ => []
    | .ok _ => takenRows g.dictionary g.outgoing

/-- What the dictionary shows: the entries that a new row gets. -/
def shows (g : Group) : Row := g.dictionary.map Field.current

theorem currents_writeCells (fields : List Field) (row : Row) (map : PresenceMap) :
    (writeCells fields row map).2.map Field.current =
      overlay (fields.map Field.current) (takenCells fields row map) := by
  induction fields generalizing row map with
  | nil => rfl
  | cons f fields ih =>
    cases row with
    | nil => rfl
    | cons entry row =>
      by_cases hkind : f.decl.kind = .sequence
      · simp only [writeCells, takenCells, if_pos hkind]
        rfl
      cases hw : (f.put entry).write map with
      | error e =>
        simp only [writeCells, takenCells, if_neg hkind, hw]
        rfl
      | ok w =>
        have htail := ih row w.map
        have hhead : w.field.current = entry := Field.current_write hw
        simp only [writeCells, takenCells, if_neg hkind, hw]
        split
        all_goals
          next hcells =>
          rw [hcells] at htail
          rw [List.map_cons, hhead, htail]
          rfl

theorem currents_writeRows (withMap : Bool) (fields : List Field) (rows : List Row) :
    (writeRows withMap fields rows).2.map Field.current =
      (takenRows fields rows).foldl overlay (fields.map Field.current) := by
  induction rows generalizing fields with
  | nil => rfl
  | cons row rows ih =>
    have hrow := currents_writeCells fields row .empty
    simp only [writeRows, takenRows, List.foldl_cons]
    rcases hcells : writeCells fields row .empty with ⟨_ | ⟨map, front⟩, middle⟩
    · rwa [hcells] at hrow
    · rw [hcells] at hrow
      have htail := ih middle
      rw [← hrow]
      rcases hrows : writeRows withMap middle rows with ⟨_ | back, fields'⟩
      all_goals
        rw [hrows] at htail
        simpa only [hrows] using htail

theorem shows_write (g : Group) (map : PresenceMap) :
    (g.write map).2.shows = (g.taken map).foldl overlay g.shows := by
  simp only [write, taken]
  split
  · rfl
  · cases hw : g.length.write map with
    | error e => rfl
    | ok w =>
      have hrows := currents_writeRows (rowsHaveMap { g with length := w.field }) g.dictionary
        g.outgoing
      dsimp only
      rw [← outgoing]
      split
      all_goals
        next hwrite => rwa [hwrite] at hrows

/-! ## Steps of a sender -/

/-- What an application does with a group that it sends. -/
inductive Step where
  | length (n : Nat)
  | absent
  | row (i : Nat) (changes : List (Entry → Entry))
  | encode (map : PresenceMap)

namespace Step

/-- A length past the capacity is not taken. -/
def run (g : Group) : Step → Group
  | .length n => (g.setLength? n).getD g
  | .absent => g.setAbsent
  | .row i changes => g.updateRow i changes
  | .encode map => (g.write map).2

/-- The rows that the step takes up into the dictionary. -/
def taken (g : Group) : Step → List Row
  | .encode map => g.taken map
  | _ => []

/-- The step does not set this cell. -/
def Leaves (i j : Nat) : Step → Prop
  | .row i' changes => i' = i → ∀ change, changes[j]? = some change → change = id
  | _ => True

end Step

/-- The group after these steps. -/
def after (g : Group) (steps : List Step) : Group := steps.foldl Step.run g

/-- All that was taken up in the course of the steps. -/
def history (g : Group) : List Step → List Row
  | [] => []
  | step :: steps => step.taken g ++ (step.run g).history steps

def cell? (g : Group) (i j : Nat) : Option Entry := g.allocated[i]? >>= (·[j]?)

theorem allocated_resize (g : Group) (n : Nat) :
    (g.resize n).allocated = g.allocated ++ List.replicate (n - g.allocated.length) g.shows := by
  simp only [allocated, resize, List.take_append_drop, shows]

theorem allocated_setLength? {g g' : Group} {n : Nat} (h : g.setLength? n = some g') :
    n ≤ maxRows ∧ g'.allocated = g.allocated ++ List.replicate (n - g.allocated.length) g.shows ∧
      g'.shows = g.shows := by
  unfold setLength? at h
  split at h
  · next hn =>
    obtain rfl := Option.some.inj h
    exact ⟨hn, allocated_resize g n, rfl⟩
  · cases h

theorem allocated_setAbsent (g : Group) : g.setAbsent.allocated = g.allocated := by
  have hmade := allocated_resize g 0
  rwa [Nat.zero_sub, List.replicate_zero, List.append_nil] at hmade

theorem shows_after (g : Group) (steps : List Step) :
    (g.after steps).shows = (g.history steps).foldl overlay g.shows := by
  induction steps generalizing g with
  | nil => rfl
  | cons step steps ih =>
    have hstep : (step.run g).shows = (step.taken g).foldl overlay g.shows := by
      cases step with
      | absent => rfl
      | row i changes => rfl
      | encode map => exact g.shows_write map
      | length n =>
        simp only [Step.run, Step.taken, List.foldl_nil]
        cases hg : g.setLength? n with
        | none => rfl
        | some g' => exact (allocated_setLength? hg).2.2
    rw [history, List.foldl_append, ← hstep]
    exact ih (step.run g)

/-! ## Rows that are made -/

theorem after_concat (g : Group) (steps : List Step) (step : Step) :
    g.after (steps ++ [step]) = step.run (g.after steps) := List.foldl_concat ..

theorem after_append (g : Group) (steps later : List Step) :
    g.after (steps ++ later) = (g.after steps).after later := List.foldl_append ..

theorem allocated_updateRow (g : Group) (i : Nat) (changes : List (Entry → Entry)) :
    (g.updateRow i changes).allocated.length = g.allocated.length := by
  simp [allocated, updateRow]

/-- A row, once made, is never lost, and none but a length makes one. -/
theorem length_allocated_run (g : Group) (step : Step) :
    g.allocated.length ≤ (step.run g).allocated.length ∧
      ∀ i, g.allocated.length ≤ i → i < (step.run g).allocated.length →
        ∃ n, step = .length n ∧ i < n ∧ n ≤ maxRows := by
  cases step with
  | absent =>
    simp only [Step.run, allocated_setAbsent]
    exact ⟨Nat.le_refl _, fun i hi hlt => by omega⟩
  | row i changes =>
    simp only [Step.run, allocated_updateRow]
    exact ⟨Nat.le_refl _, fun i hi hlt => by omega⟩
  | encode map =>
    have hmoved := g.moved_write map
    simp only [Step.run, allocated, hmoved.rows, hmoved.spare]
    exact ⟨Nat.le_refl _, fun i hi hlt => by omega⟩
  | length n =>
    simp only [Step.run]
    cases hg : g.setLength? n with
    | none => exact ⟨Nat.le_refl _, fun i hi hlt => by simp at hlt; omega⟩
    | some g' =>
      obtain ⟨hn, hmade, -⟩ := allocated_setLength? hg
      rw [Option.getD_some, hmade, List.length_append, List.length_replicate]
      exact ⟨by omega, fun i hi hlt => ⟨n, rfl, by omega, hn⟩⟩

theorem getElem?_changed (changes : List (Entry → Entry)) (row : Row) (j : Nat) :
    (List.zipWith (fun change e => change e) changes row ++ row.drop changes.length)[j]? =
      row[j]?.map (changes[j]?.getD id) := by
  induction changes generalizing row j with
  | nil => simp
  | cons change changes ih =>
    cases row with
    | nil => simp
    | cons entry row =>
      cases j with
      | zero => simp
      | succ j => simpa using ih row j

/-- The cell of a row that is there stays as it is until it is set. -/
theorem cell?_run (g : Group) {step : Step} {i j : Nat} (hi : i < g.allocated.length)
    (hleft : step.Leaves i j) : (step.run g).cell? i j = g.cell? i j := by
  cases step with
  | absent => rw [cell?, Step.run, allocated_setAbsent, cell?]
  | encode map =>
    have hmoved := g.moved_write map
    simp only [cell?, Step.run, allocated, hmoved.rows, hmoved.spare]
  | length n =>
    simp only [Step.run]
    cases hg : g.setLength? n with
    | none => rfl
    | some g' =>
      obtain ⟨-, hmade, -⟩ := allocated_setLength? hg
      rw [Option.getD_some, cell?, hmade, List.getElem?_append_left hi, cell?]
  | row i' changes =>
    simp only [Step.run, cell?, allocated, updateRow]
    by_cases hrow : i < g.rows.length
    · rw [List.getElem?_append_left (by simpa using hrow), List.getElem?_append_left hrow,
        List.getElem?_modify, List.getElem?_eq_getElem hrow]
      by_cases hi' : i' = i
      · have hid : changes[j]?.getD id = id := by
          cases hchange : changes[j]? with
          | none => rfl
          | some change => exact hleft hi' change hchange
        simp [if_pos hi', getElem?_changed, hid]
      · simp [if_neg hi']
    · rw [List.getElem?_append_right (by simpa using hrow),
        List.getElem?_append_right (Nat.not_lt.1 hrow), List.length_modify]

theorem cell?_after (g : Group) {steps : List Step} {i j : Nat} (hi : i < g.allocated.length)
    (hleft : ∀ step ∈ steps, step.Leaves i j) : (g.after steps).cell? i j = g.cell? i j := by
  induction steps generalizing g with
  | nil => rfl
  | cons step steps ih =>
    obtain ⟨hhead, htail⟩ := List.forall_mem_cons.1 hleft
    exact (ih (step.run g) (Nat.lt_of_lt_of_le hi (length_allocated_run g step).1) htail).trans
      (cell?_run g hi hhead)

theorem allocated_length (g : Group) {n : Nat} (hmax : n ≤ maxRows) :
    (Step.run g (.length n)).allocated =
      g.allocated ++ List.replicate (n - g.allocated.length) g.shows := by
  simp only [Step.run]
  cases hg : g.setLength? n with
  | none => simp [setLength?, hmax] at hg
  | some g' => exact (allocated_setLength? hg).2.1

/-- A new row is a copy of what the dictionary shows. -/
theorem cell?_new (g : Group) {n i : Nat} (hi : g.allocated.length ≤ i) (hn : i < n)
    (hmax : n ≤ maxRows) (j : Nat) : (Step.run g (.length n)).cell? i j = g.shows[j]? := by
  rw [cell?, allocated_length g hmax, List.getElem?_append_right hi, List.getElem?_replicate,
    if_pos (by omega)]
  rfl

/-- For every row there is the step that made it. -/
theorem exists_made {g : Group} (hg : g.allocated = []) (steps : List Step) {i : Nat}
    (hi : i < (g.after steps).allocated.length) :
    ∃ before n later, steps = before ++ .length n :: later ∧
      (g.after before).allocated.length ≤ i ∧ i < n ∧ n ≤ maxRows := by
  induction steps using List.reverseRecOn with
  | nil =>
    rw [after, List.foldl_nil, hg] at hi
    cases hi
  | append_singleton steps step ih =>
    by_cases hold : i < (g.after steps).allocated.length
    · obtain ⟨before, n, later, rfl, hmade⟩ := ih hold
      exact ⟨before, n, later ++ [step], by simp, hmade⟩
    · rw [after_concat] at hi
      obtain ⟨n, rfl, hn, hmax⟩ := (length_allocated_run _ step).2 i (Nat.not_lt.1 hold) hi
      exact ⟨steps, n, [], rfl, Nat.not_lt.1 hold, hn, hmax⟩

/-! ## Values that are missing -/

/-- A field that needs a value is refused without one. -/
theorem write_put_missing {f : Field} (hallowed : f.decl.op.allowedOn f.decl.kind = true)
    (hmandatory : f.decl.isMandatory = true) (hop : f.decl.op ≠ .constant) {entry : Entry}
    (hmissing : entry.isAssigned = false) (map : PresenceMap) :
    (f.put entry).write map = .error (.mandatoryMissing f.decl.id) := by
  have hcheck : (f.put entry).checkSendable = .error (.mandatoryMissing f.decl.id) := by
    simp [Field.checkSendable, Field.put, hallowed, hmissing, hmandatory, hop]
  rw [Field.write, hcheck]
  rfl

/-- A row with such a field is refused, for this reason if the write gets to it. -/
theorem writeCells_missing {fields : List Field} {row : Row} {j : Nat} {d : Decl} {entry : Entry}
    (hd : (fields.map Field.decl)[j]? = some d) (hallowed : d.op.allowedOn d.kind = true)
    (hmandatory : d.isMandatory = true) (hop : d.op ≠ .constant) (hrow : row[j]? = some entry)
    (hmissing : entry.isAssigned = false) (map : PresenceMap) :
    ∃ e fields', writeCells fields row map = (.error e, fields') ∧
      (j < (takenCells fields row map).length → e = .mandatoryMissing d.id) := by
  induction fields generalizing row map j with
  | nil => simp at hd
  | cons f fields ih =>
    obtain ⟨first, row, rfl⟩ : ∃ first row', row = first :: row' := by
      cases row with
      | nil => simp at hrow
      | cons first row => exact ⟨first, row, rfl⟩
    by_cases hkind : f.decl.kind = .sequence
    · exact ⟨_, _, by rw [writeCells, if_pos hkind], by simp [takenCells, hkind]⟩
    cases j with
    | zero =>
      obtain rfl : f.decl = d := by simpa using hd
      obtain rfl : first = entry := by simpa using hrow
      have hwrite := write_put_missing hallowed hmandatory hop hmissing map
      refine ⟨_, f.put first :: fields, ?_, fun _ => rfl⟩
      simp only [writeCells, if_neg hkind, hwrite]
    | succ j =>
      cases hw : (f.put first).write map with
      | error e =>
        refine ⟨e, f.put first :: fields, by simp only [writeCells, if_neg hkind, hw], fun hj => ?_⟩
        simp [takenCells, if_neg hkind, hw] at hj
      | ok w =>
        obtain ⟨e, fields', htail, hreason⟩ := ih (by simpa using hd) (by simpa using hrow) w.map
        refine ⟨e, w.field :: fields', by simp only [writeCells, if_neg hkind, hw, htail],
          fun hj => hreason ?_⟩
        simpa [takenCells, if_neg hkind, hw] using hj

theorem writeRows_missing (withMap : Bool) {fields : List Field} {rows : List Row} {row : Row}
    {i j : Nat} {d : Decl} {entry : Entry} (hd : (fields.map Field.decl)[j]? = some d)
    (hallowed : d.op.allowedOn d.kind = true) (hmandatory : d.isMandatory = true)
    (hop : d.op ≠ .constant) (hi : rows[i]? = some row) (hrow : row[j]? = some entry)
    (hmissing : entry.isAssigned = false) :
    ∃ e fields', writeRows withMap fields rows = (.error e, fields') ∧
      ∀ cells, (takenRows fields rows)[i]? = some cells → j < cells.length →
        e = .mandatoryMissing d.id := by
  induction rows generalizing fields i with
  | nil => simp at hi
  | cons first rows ih =>
    cases i with
    | zero =>
      obtain rfl : first = row := by simpa using hi
      obtain ⟨e, fields', hcells, hreason⟩ :=
        writeCells_missing hd hallowed hmandatory hop hrow hmissing .empty
      refine ⟨e, fields', by simp only [writeRows, hcells], fun cells htaken hj => hreason ?_⟩
      obtain rfl : takenCells fields first .empty = cells := by simpa [takenRows] using htaken
      exact hj
    | succ i =>
      have hframe := frame_writeCells fields first .empty
      rcases hcells : writeCells fields first .empty with ⟨e | ⟨map, front⟩, middle⟩
      · refine ⟨e, middle, by simp only [writeRows, hcells], fun cells htaken => ?_⟩
        simp [takenRows, hcells] at htaken
      · rw [hcells] at hframe
        have hd' : (middle.map Field.decl)[j]? = some d := by rwa [decls_of_frames hframe]
        obtain ⟨e, fields', htail, hreason⟩ := ih hd' (by simpa using hi)
        refine ⟨e, fields', by simp only [writeRows, hcells, htail], fun cells htaken => ?_⟩
        exact hreason cells (by simpa [takenRows, hcells] using htaken)

/-- A group with such a row is refused, for this reason if the write gets to the field. -/
theorem write_missing {g : Group} {i j : Nat} {f : Field} {row : Row} {entry : Entry}
    (hf : g.dictionary[j]? = some f) (hallowed : f.decl.op.allowedOn f.decl.kind = true)
    (hmandatory : f.decl.isMandatory = true) (hop : f.decl.op ≠ .constant)
    (hi : g.outgoing[i]? = some row) (hrow : row[j]? = some entry)
    (hmissing : entry.isAssigned = false) (map : PresenceMap) :
    ∃ e g', g.write map = (.error e, g') ∧
      ∀ cells, (g.taken map)[i]? = some cells → j < cells.length →
        e = .mandatoryMissing f.decl.id := by
  simp only [write, taken]
  split
  · exact ⟨_, _, rfl, by simp⟩
  · cases hw : g.length.write map with
    | error e => exact ⟨_, _, rfl, by simp⟩
    | ok w =>
      have hd : (g.dictionary.map Field.decl)[j]? = some f.decl := by simp [hf]
      obtain ⟨e, fields', hrows, hreason⟩ := writeRows_missing
        (rowsHaveMap { g with length := w.field }) hd hallowed hmandatory hop hi hrow hmissing
      refine ⟨e, { g with length := w.field, dictionary := fields' }, ?_, hreason⟩
      dsimp only
      rw [← outgoing, hrows]

/-- No write succeeds, and one that gets to the cell finds the value of the field missing. -/
def Refuses (g : Group) (i j : Nat) (id : UInt32) : Prop :=
  ∀ map, ∃ e g', g.write map = (.error e, g') ∧
    ∀ cells, (g.taken map)[i]? = some cells → j < cells.length → e = .mandatoryMissing id

theorem refuses_of_cell {g s : Group} (hcounted : s.Counted)
    (hdecls : s.dictionary.map Field.decl = g.dictionary.map Field.decl) {i j : Nat} {f : Field}
    (hf : g.dictionary[j]? = some f) (hallowed : f.decl.op.allowedOn f.decl.kind = true)
    (hmandatory : f.decl.isMandatory = true) (hop : f.decl.op ≠ .constant) (hi : i < s.count)
    {entry : Entry} (hcell : s.cell? i j = some entry) (hmissing : entry.isAssigned = false) :
    s.Refuses i j f.decl.id := by
  intro map
  obtain ⟨f', hf', hdecl⟩ : ∃ f', s.dictionary[j]? = some f' ∧ f'.decl = f.decl := by
    have hd := congrArg (·[j]?) hdecls
    simp only [List.getElem?_map, hf, Option.map_some] at hd
    exact Option.map_eq_some_iff.1 hd
  obtain ⟨row, hrow, hentry⟩ := Option.bind_eq_some_iff.1 hcell
  rw [allocated, List.getElem?_append_left hi, ← outgoing_of_counted hcounted] at hrow
  rw [← hdecl] at hallowed hmandatory hop ⊢
  exact write_missing hf' hallowed hmandatory hop hrow hentry hmissing map

/-! ## Groups of a set -/

theorem frame_run (g : Group) (step : Step) :
    (step.run g).dictionary.map Field.frame = g.dictionary.map Field.frame := by
  cases step with
  | absent => rfl
  | row i changes => rfl
  | encode map => exact (g.moved_write map).dictionary
  | length n =>
    simp only [Step.run, setLength?]
    split <;> rfl

theorem frame_after (g : Group) (steps : List Step) :
    (g.after steps).dictionary.map Field.frame = g.dictionary.map Field.frame := by
  induction steps generalizing g with
  | nil => rfl
  | cons step steps ih => exact (ih (step.run g)).trans (frame_run g step)

theorem Sound.run {g : Group} (h : g.Sound) (step : Step) : (step.run g).Sound := by
  cases step with
  | absent => exact h.setAbsent
  | row i changes => exact h.updateRow i changes
  | encode map => exact h.of_moved (g.moved_write map)
  | length n =>
    simp only [Step.run]
    cases hg : g.setLength? n with
    | none => exact h
    | some g' => exact h.setLength? hg

theorem Sound.after {g : Group} (h : g.Sound) (steps : List Step) : (g.after steps).Sound := by
  induction steps generalizing g with
  | nil => exact h
  | cons step steps ih => exact ih (h.run step)

/-- A group of a fresh slot has no rows, and its dictionary shows nothing. -/
theorem fresh_of_mem (set : TemplateSet) {m : Message} (hm : m ∈ set.messages) {g : Group}
    (hg : .group g ∈ m.items) :
    g.allocated = [] ∧ ∀ f ∈ g.dictionary, f.current = .undefined f.decl.initial := by
  obtain ⟨t, -, rfl⟩ := List.mem_map.1 hm
  obtain ⟨⟨s, bit⟩, -, hs⟩ := List.mem_map.1 hg
  cases s with
  | scalar d => cases hs
  | group d length row =>
    obtain rfl := Item.group.inj hs
    refine ⟨rfl, fun f hf => ?_⟩
    obtain ⟨p, -, rfl⟩ := List.mem_map.1 hf
    rfl

/-- What was written last in a column. -/
def lastTaken (g : Group) (steps : List Step) (j : Nat) : Option Entry :=
  ((g.history steps).filterMap (·[j]?)).getLast?

/-- A new row shows what was written last in each column until then. -/
theorem shows_fresh (set : TemplateSet) {m : Message} (hm : m ∈ set.messages) {g : Group}
    (hg : .group g ∈ m.items) (steps : List Step) {j : Nat} {f : Field}
    (hf : g.dictionary[j]? = some f) :
    (g.after steps).shows[j]? = some ((g.lastTaken steps j).getD (.undefined f.decl.initial)) := by
  have hfresh := (fresh_of_mem set hm hg).2 f (List.mem_of_getElem? hf)
  rw [shows_after, getElem?_foldl_overlay, shows, List.getElem?_map, hf, Option.map_some, hfresh]
  exact Option.or_some ..

/--
In a cell that has not been set since its row was made there is what was written last in its column
before the row was made, whatever was written afterwards: nothing, if the column had not been
written yet. A row in use that has nothing where a value is needed is never sent.
-/
theorem unset_cell (set : TemplateSet) {m : Message} (hm : m ∈ set.messages) {g : Group}
    (hg : .group g ∈ m.items) (steps : List Step) {i : Nat}
    (hi : i < (g.after steps).allocated.length) :
    ∃ before n later, steps = before ++ .length n :: later ∧
      (g.after before).allocated.length ≤ i ∧ i < n ∧
      ∀ j f, g.dictionary[j]? = some f → (∀ step ∈ later, step.Leaves i j) →
        ∃ entry, (g.after steps).cell? i j = some entry ∧
          entry = (g.lastTaken before j).getD (.undefined f.decl.initial) ∧
          (entry.isAssigned = false → f.decl.isMandatory = true → f.decl.op ≠ .constant →
            i < (g.after steps).count → (g.after steps).Refuses i j f.decl.id) := by
  obtain ⟨before, n, later, rfl, hnew, hn, hmax⟩ := exists_made (fresh_of_mem set hm hg).1 steps hi
  refine ⟨before, n, later, rfl, hnew, hn, fun j f hf hleft => ?_⟩
  have hmade : i < (Step.run (g.after before) (.length n)).allocated.length := by
    rw [allocated_length _ hmax, List.length_append, List.length_replicate]
    omega
  have hcell : (g.after (before ++ .length n :: later)).cell? i j =
      some ((g.lastTaken before j).getD (.undefined f.decl.initial)) := by
    rw [← shows_fresh set hm hg before hf, ← cell?_new _ hnew hn hmax, ← cell?_after _ hmade hleft,
      after_append]
    rfl
  refine ⟨_, hcell, rfl, fun hmissing hmandatory hop hcount => ?_⟩
  have hformed : g.Formed := set.formed_messages m hm _ hg
  have hallowed := (hformed.dictionary f (List.mem_of_getElem? hf)).valid.operator
  have hsound : g.Sound := (set.sound_messages m hm).items _ hg
  exact refuses_of_cell (hsound.after _).counted (decls_of_frames (frame_after g _)) hf hallowed
    hmandatory hop hcount hcell hmissing

/-- Trades, each with a quantity. -/
def fills : TemplateSet where
  templates := [{ id := 1, name := "Fills", fields := [
    .group { name := "Fills", id := 1362, kind := .sequence }
      (.scalar { name := "NoFills", id := 1362, kind := .uint })
      [.scalar { name := "FillQty", id := 1365, kind := .uint }]] }]
  accepted := rfl

def fillsGroup : Group := (fills.messages.head?.bind (·.group? "Fills")).getD default

/-- A quantity of 5 is sent, and another row is asked for, which is left as it is. -/
def twoFills : List Step :=
  [.length 1, .row 0 [fun _ => .assigned (.uint 5)], .encode .empty, .length 2]

theorem unset_cell_fills :
    ∃ before n later, twoFills = before ++ .length n :: later ∧
      (fillsGroup.after before).allocated.length ≤ 1 ∧ 1 < n ∧
      ∀ j f, fillsGroup.dictionary[j]? = some f → (∀ step ∈ later, step.Leaves 1 j) →
        ∃ entry, (fillsGroup.after twoFills).cell? 1 j = some entry ∧
          entry = (fillsGroup.lastTaken before j).getD (.undefined f.decl.initial) ∧
          (entry.isAssigned = false → f.decl.isMandatory = true → f.decl.op ≠ .constant →
            1 < (fillsGroup.after twoFills).count →
            (fillsGroup.after twoFills).Refuses 1 j f.decl.id) := by
  have hm : fills.messages[0] ∈ fills.messages := List.getElem_mem _
  exact unset_cell fills hm (.head _) twoFills (by decide)

/-- The new row has the quantity of the row before, and is sent with it. -/
theorem unset_cell_sent : ∃ m ∈ fills.messages, .group fillsGroup ∈ m.items ∧
    (fillsGroup.after twoFills).cell? 1 0 = some (.assigned (.uint 5)) ∧
    ((fillsGroup.after twoFills).write .empty).1 = .ok (.empty, [130, 133, 133]) :=
  ⟨fills.messages[0], List.getElem_mem _, .head _, rfl, rfl⟩

end Group

end MarketFeed
