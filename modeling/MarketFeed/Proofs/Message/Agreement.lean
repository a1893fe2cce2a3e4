import MarketFeed.Message.Encode
import MarketFeed.Proofs.Group.Agreement
import Mathlib.Data.List.Forall2

/-!
# Groups and messages on both sides

A message that was written is read back by a receiver whose fields, group lengths and dictionaries
agree with the sender's, and they agree again afterwards: `Message.Agrees.read_completes`. What the
sender has to keep to is `Message.Sendable`, and what every message of a template is besides is
`Message.Sound`.
-/

namespace MarketFeed

namespace Group

/-- Both sides declare and remember the same of the group, its length and its dictionary. -/
structure Agrees (g r : Group) : Prop where
  head : g.head.Agrees r.head
  length : g.length.Agrees r.length
  dictionary : List.Forall₂ Field.Agrees g.dictionary r.dictionary

/-- Every row, also one kept for later, has an entry for each field. -/
def Rectangular (g : Group) : Prop := ∀ row ∈ g.rows ++ g.spare, row.length = g.dictionary.length

/-- The length stands for the rows that there are. -/
def Counted (g : Group) : Prop := g.transmittedLength.toNat = g.rows.length

/-- What the declarations of a group are checked for. -/
structure Declares (g : Group) : Prop where
  kind : g.length.decl.kind = .uint
  constant : g.length.decl.HasConstant
  dictionary : WellDeclared g.dictionary 0

def decls (g : Group) : List Decl := g.dictionary.map Field.decl

/-- What the sender has to keep to: a constant length is the declared one, and texts are texts. -/
structure Sendable (g : Group) : Prop where
  constant : g.length.decl.op = .constant →
    ((g.length.decl.delivered g.length.current).bind Value.asUInt).getD 0 = g.transmittedLength
  text : ∀ row ∈ g.rows, Row.IsText g.decls row

instance (g : Group) : Decidable g.Sendable :=
  decidable_of_iff (_ ∧ _) ⟨fun h => ⟨h.1, h.2⟩, fun h => ⟨h.constant, h.text⟩⟩

/-- The received group is what the one sent stands for: its length, and row for row. -/
structure Conveys (g r : Group) : Prop where
  length : g.length.decl.Conveys g.length.current r.length.current
  rows : List.Forall₂ (Row.Conveys g.decls) g.rows r.rows

theorem rowsHaveMap_of_agrees {g r : Group} (h : g.Agrees r) : r.rowsHaveMap = g.rowsHaveMap := by
  rw [rowsHaveMap_eq, rowsHaveMap_eq, frame_of_agrees h.dictionary]

theorem length_of_agrees {g r : Group} (h : g.Agrees r) :
    r.dictionary.length = g.dictionary.length := by
  simpa using congrArg List.length (frame_of_agrees h.dictionary)

/-! ## The number of rows -/

theorem length_rows_resize (g : Group) (n : Nat) : (g.resize n).rows.length = n := by
  simp only [resize, List.length_take, List.length_append, List.length_replicate]
  omega

theorem Rectangular.resize {g : Group} (h : g.Rectangular) (n : Nat) :
    (g.resize n).Rectangular := by
  intro row hrow
  simp only [Group.resize, List.take_append_drop] at hrow
  rcases List.mem_append.1 hrow with hrow | hrow
  · exact h row hrow
  · rw [List.eq_of_mem_replicate hrow]
    simp [Group.resize]

theorem asUInt_of_holds {e : Entry} {v? : Option Value} (h : e.Holds v?) :
    e.asUInt = v?.bind Value.asUInt := by
  cases v? with
  | some v =>
    obtain rfl : e = .assigned v := h
    rfl
  | none =>
    have : e.isAssigned = false := by
      rw [Entry.isAssigned, show e.state = .empty from h]
      rfl
    rw [Entry.asUInt, Entry.value?_of_not_isAssigned this]
    rfl

/-- The number of rows that a receiver of the length expects. -/
def announced (g : Group) : UInt64 :=
  ((g.length.decl.delivered g.length.current).bind Value.asUInt).getD 0

theorem announced_of_not_constant {g : Group} (hop : g.length.decl.op ≠ .constant) :
    g.announced = g.transmittedLength := by
  rw [announced, Decl.delivered, if_neg hop]
  rfl

theorem transmittedLength_received {g : Group} {length : Field}
    (h : g.length.decl.Conveys g.length.current length.current) (r : Group) :
    ({ r with length } : Group).transmittedLength = g.announced :=
  congrArg (Option.getD · 0) (asUInt_of_holds h)

/-- The receiver counts the rows that were sent. -/
theorem transmittedLength_of_conveys {g : Group} (hs : g.Sendable) {length : Field}
    (h : g.length.decl.Conveys g.length.current length.current) (r : Group) :
    ({ r with length } : Group).transmittedLength = g.transmittedLength := by
  rw [transmittedLength_received h]
  by_cases hop : g.length.decl.op = .constant
  · exact hs.constant hop
  · exact announced_of_not_constant hop

theorem isText_of_uint {d : Decl} (h : d.kind = .uint) (e : Entry) : d.IsText e := fun hu => by
  rw [h] at hu
  cases hu

/-! ## The whole group -/

/-- The rows that a write takes up: as many as the length says. -/
def outgoing (g : Group) : List Row := (g.rows ++ g.spare).take g.transmittedLength.toNat

theorem outgoing_of_counted {g : Group} (hc : g.Counted) : g.outgoing = g.rows := by
  rw [outgoing, hc, List.take_left]

theorem write_outgoing {g g' : Group} {map map' : PresenceMap} {bytes : List UInt8}
    (h : g.write map = (.ok (map', bytes), g')) :
    g.outgoing.length = g.transmittedLength.toNat ∧ g.outgoing.length ≤ maxRows ∧
      ∃ w back dictionary, g.length.write map = .ok w ∧
      writeRows g.rowsHaveMap g.dictionary g.outgoing = (.ok back, dictionary) ∧ w.map = map' ∧
      bytes = w.bytes ++ back ∧ g' = { g with length := w.field, dictionary } := by
  simp only [write] at h
  split at h
  · cases h
  · next hfits =>
    have hlength : g.outgoing.length = g.transmittedLength.toNat := by
      rw [outgoing, List.length_take]
      omega
    split at h
    · cases h
    · next w hw =>
      split at h
      · cases h
      · next back dictionary hrows =>
        simp only [Prod.mk.injEq, Except.ok.injEq] at h
        obtain ⟨⟨rfl, rfl⟩, rfl⟩ := h
        exact ⟨hlength, by omega, w, back, dictionary, hw, hrows, rfl, rfl, rfl⟩

theorem write_eq_ok {g g' : Group} (hc : g.Counted) {map map' : PresenceMap} {bytes : List UInt8}
    (h : g.write map = (.ok (map', bytes), g')) :
    g.rows.length ≤ maxRows ∧ ∃ w back dictionary, g.length.write map = .ok w ∧
      writeRows g.rowsHaveMap g.dictionary g.rows = (.ok back, dictionary) ∧ w.map = map' ∧
      bytes = w.bytes ++ back ∧ g' = { g with length := w.field, dictionary } := by
  obtain ⟨-, h⟩ := write_outgoing h
  rwa [outgoing_of_counted hc] at h

theorem Agrees.read_completes {g g' r : Group} (h : g.Agrees r) (hd : g.Declares)
    (hg : g.Rectangular) (hr : r.Rectangular) (hc : g.Counted) (hs : g.Sendable)
    {map map' : PresenceMap} {bytes : List UInt8} (hw : g.write map = (.ok (map', bytes), g'))
    {sent : PresenceMap} (hsent : g.length.isMarked sent = g.length.marks) :
    ∃ r', Completes (r.read sent .length) bytes r' ∧ g'.Agrees r' ∧ r'.Rectangular ∧
      g.Conveys r' := by
  obtain ⟨hmax, w, back, dictionary, hlength, hrows, -, rfl, rfl⟩ := write_eq_ok hc hw
  have hmarked : r.length.isMarked sent = g.length.marks := by
    rw [← hsent, Field.isMarked, h.length.bit]
    rfl
  obtain ⟨length, hread, hagree, hconveys⟩ :=
    h.length.read_takes hd.constant (isText_of_uint hd.kind _) hlength hmarked
  have hcount := transmittedLength_of_conveys hs hconveys r
  -- The receiver makes room for the rows before it reads them.
  have hresize := Rectangular.resize (g := { r with length }) hr g.rows.length
  have hlen := length_rows_resize { r with length } g.rows.length
  generalize hr' : ({ r with length } : Group).resize g.rows.length = r' at hresize hlen
  have hdict : r'.dictionary = r.dictionary := by rw [← hr']; rfl
  have hhead : r'.head = r.head := by rw [← hr']; rfl
  have hlength' : r'.length = length := by rw [← hr']; rfl
  have hmap : r'.rowsHaveMap = g.rowsHaveMap := by
    rw [← rowsHaveMap_of_agrees h, rowsHaveMap, rowsHaveMap, hdict]
  have hrrows (row : Row) (hrow : row ∈ r'.rows) : row.length = g.dictionary.length := by
    rw [hresize row (List.mem_append_left _ hrow), hdict, length_of_agrees h]
  obtain ⟨rdictionary, rrows, hreads, hagrees, hconveyss⟩ := readRows_completes h.dictionary
    hd.dictionary (rfl : g.rowsHaveMap = _)
    (fun row hrow => hg row (List.mem_append_left _ hrow)) hs.text hrows hlen
    hrrows
  have hframe : rdictionary.length = g.dictionary.length := by
    have hwritten := frame_writeRows g.rowsHaveMap g.dictionary g.rows
    rw [hrows] at hwritten
    simpa using congrArg List.length ((frame_of_agrees hagrees).trans hwritten)
  refine ⟨{ r' with dictionary := rdictionary, rows := rrows }, ?_, ⟨?_, ?_, hagrees⟩, ?_, ?_⟩
  · rw [read_length]
    refine .afterToken hread (fun rest => ?_) _ _
    rw [readBody, hcount, if_neg (by rw [hc]; omega), hc, hr', readFrom_eq, hmap, hdict,
      List.drop_zero]
    rw [hreads rest]
    rfl
  · rw [hhead]
    exact h.head
  · rw [hlength']
    exact hagree
  · intro row hrow
    rcases List.mem_append.1 hrow with hrow | hrow
    · rw [Row.length_of_conveys hconveyss row hrow, List.length_map, hframe]
    · rw [hresize row (List.mem_append_right _ hrow), hdict, length_of_agrees h, hframe]
  · refine ⟨?_, hconveyss⟩
    rw [hlength']
    exact hconveys

/-! ## What a write keeps, whether it ends or not -/

/-- What is not memory is the same in `g'` as in `g`. -/
structure Moved (g g' : Group) : Prop where
  head : g'.head = g.head
  length : g'.length.frame = g.length.frame
  current : g'.length.current = g.length.current
  dictionary : g'.dictionary.map Field.frame = g.dictionary.map Field.frame
  rows : g'.rows = g.rows
  spare : g'.spare = g.spare

theorem moved_write (g : Group) (map : PresenceMap) : g.Moved (g.write map).2 := by
  simp only [write]
  split
  · exact ⟨rfl, rfl, rfl, rfl, rfl, rfl⟩
  · split
    · exact ⟨rfl, rfl, rfl, rfl, rfl, rfl⟩
    · next w hw =>
      have hrows := frame_writeRows (rowsHaveMap { g with length := w.field }) g.dictionary
        ((g.rows ++ g.spare).take g.transmittedLength.toNat)
      split
      all_goals
        next htail =>
        rw [htail] at hrows
        exact ⟨rfl, Field.frame_write hw, Field.current_write hw, hrows, rfl, rfl⟩

/-- What a group of a template is, whatever is put into it. -/
structure Sound (g : Group) : Prop where
  declares : g.Declares
  rectangular : g.Rectangular
  counted : g.Counted

theorem Moved.rectangular {g g' : Group} (hm : g.Moved g') (h : g.Rectangular) :
    g'.Rectangular := by
  intro row hrow
  have hdict : g'.dictionary.length = g.dictionary.length := by
    simpa using congrArg List.length hm.dictionary
  rw [hm.rows, hm.spare] at hrow
  rw [hdict]
  exact h row hrow

theorem Sound.of_moved {g g' : Group} (h : g.Sound) (hm : g.Moved g') : g'.Sound := by
  have hdecl : g'.length.decl = g.length.decl := congrArg Prod.fst hm.length
  refine ⟨⟨?_, ?_, h.declares.dictionary.of_frames hm.dictionary⟩, hm.rectangular h.rectangular, ?_⟩
  · rw [hdecl]
    exact h.declares.kind
  · rw [hdecl]
    exact h.declares.constant
  · have := h.counted
    simp only [Counted, transmittedLength] at this ⊢
    rwa [hm.current, hm.rows]

end Group

/-! ## Items -/

namespace Item

/-- The field whose presence bit the item has: the field itself, or the length of the group. -/
def carrier : Item → Field
  | scalar f => f
  | group g => g.length

def Agrees : Item → Item → Prop
  | scalar f, scalar r => f.Agrees r
  | group g, group r => g.Agrees r
  | _, _ => False

def Sound : Item → Prop
  | scalar f => f.decl.HasConstant
  | group g => g.Sound

def Rectangular : Item → Prop
  | scalar _ => True
  | group g => g.Rectangular

def Sendable : Item → Prop
  | scalar f => f.decl.IsText f.current
  | group g => g.Sendable

instance : (i : Item) → Decidable i.Sendable
  | scalar f => inferInstanceAs (Decidable (f.decl.IsText f.current))
  | group g => inferInstanceAs (Decidable g.Sendable)

/-- The received item is what the one sent stands for. -/
def Conveys : Item → Item → Prop
  | scalar f, scalar r => f.decl.Conveys f.current r.current
  | group g, group r => g.Conveys r
  | _, _ => False

theorem bit_carrier (i : Item) : i.carrier.bit = i.bit? := by
  cases i <;> rfl

theorem write_carrier {i i' : Item} (hi : i.Sound) {map map' : PresenceMap} {bytes : List UInt8}
    (h : i.write map = (.ok (map', bytes), i')) :
    ∃ w, i.carrier.write map = .ok w ∧ w.map = map' := by
  cases i with
  | scalar f =>
    simp only [write] at h
    split at h
    · next w hw =>
      simp only [Prod.mk.injEq, Except.ok.injEq] at h
      exact ⟨w, hw, h.1.1⟩
    · cases h
  | group g =>
    rcases hg : g.write map with ⟨written, g'⟩
    simp only [write, hg, Prod.mk.injEq] at h
    obtain ⟨rfl, rfl⟩ := h
    obtain ⟨-, w, -, -, hw, -, hmap, -⟩ := Group.write_eq_ok hi.counted hg
    exact ⟨w, hw, hmap⟩

/-- What is not memory is the same in the one item as in the other. -/
def Moved : Item → Item → Prop
  | scalar f, scalar f' => f'.frame = f.frame ∧ f'.current = f.current
  | group g, group g' => g.Moved g'
  | _, _ => False

theorem Moved.refl (i : Item) : i.Moved i := by
  cases i with
  | scalar f => exact ⟨rfl, rfl⟩
  | group g => exact ⟨rfl, rfl, rfl, rfl, rfl, rfl⟩

theorem moved_write (i : Item) (map : PresenceMap) : i.Moved (i.write map).2 := by
  cases i with
  | scalar f =>
    simp only [write]
    split
    · next w hw => exact ⟨Field.frame_write hw, Field.current_write hw⟩
    · exact Moved.refl _
  | group g => exact Group.moved_write g map

theorem moved_writeAll (items : List Item) (map : PresenceMap) :
    List.Forall₂ Moved items (writeAll items map).2 := by
  induction items generalizing map with
  | nil => exact .nil
  | cons i items ih =>
    have hhead := moved_write i map
    simp only [writeAll]
    split
    · next hi =>
      rw [hi] at hhead
      exact .cons hhead (List.forall₂_same.2 fun i _ => Moved.refl i)
    · next map' bytes i' hi =>
      rw [hi] at hhead
      have htail := ih map'
      split
      all_goals
        next hitems =>
        rw [hitems] at htail
        exact .cons hhead htail

theorem Moved.sound {i i' : Item} (h : i.Moved i') (hi : i.Sound) :
    i'.Sound ∧ i'.bit? = i.bit? := by
  cases i with
  | scalar f =>
    cases i' with
    | scalar f' =>
      have hdecl : f'.decl = f.decl := congrArg Prod.fst h.1
      refine ⟨?_, congrArg Prod.snd h.1⟩
      change f'.decl.HasConstant
      rw [hdecl]
      exact hi
    | group g' => exact h.elim
  | group g =>
    cases i' with
    | scalar f' => exact h.elim
    | group g' => exact ⟨Group.Sound.of_moved hi h, congrArg Prod.snd (Group.Moved.length h)⟩

/-- An item that was written is read back by one that agrees with it. -/
theorem Agrees.read_completes {i i' r : Item} (h : i.Agrees r) (hi : i.Sound)
    (hr : r.Rectangular) (hs : i.Sendable) {map map' : PresenceMap} {bytes : List UInt8}
    (hw : i.write map = (.ok (map', bytes), i')) {sent : PresenceMap}
    (hsent : i.carrier.isMarked sent = i.carrier.marks) :
    ∃ r', Completes (r.read sent .length) bytes r' ∧ i'.Agrees r' ∧ r'.Rectangular ∧
      i.Conveys r' := by
  cases i with
  | scalar f =>
    cases r with
    | group r => exact h.elim
    | scalar r =>
      simp only [write] at hw
      split at hw
      · next w hf =>
        simp only [Prod.mk.injEq, Except.ok.injEq] at hw
        obtain ⟨⟨-, rfl⟩, rfl⟩ := hw
        have hmarked : r.isMarked sent = f.marks := by
          rw [Field.isMarked, Field.Agrees.bit h]
          exact hsent
        obtain ⟨r', hread, hagree, hconveys⟩ := Field.Agrees.read_takes h hi hs hf hmarked
        refine ⟨scalar r', ?_, hagree, trivial, hconveys⟩
        rw [read_scalar, ← List.append_nil w.bytes]
        exact .afterToken hread (.finished _) _ _
      · cases hw
  | group g =>
    cases r with
    | scalar r => exact h.elim
    | group r =>
      rcases hg : g.write map with ⟨written, g'⟩
      simp only [write, hg, Prod.mk.injEq] at hw
      obtain ⟨rfl, rfl⟩ := hw
      obtain ⟨r', hread, hagree, hrect, hconveys⟩ := Group.Agrees.read_completes h hi.declares
        hi.rectangular hr hi.counted hs hg hsent
      exact ⟨group r', hread.within _ _, hagree, hrect, hconveys⟩

theorem writeAll_cons_eq_ok {i : Item} {items items' : List Item} {map map' : PresenceMap}
    {bytes : List UInt8} (h : writeAll (i :: items) map = (.ok (map', bytes), items')) :
    ∃ middle front i' back items'', i.write map = (.ok (middle, front), i') ∧
      writeAll items middle = (.ok (map', back), items'') ∧ bytes = front ++ back ∧
      items' = i' :: items'' := by
  simp only [writeAll] at h
  split at h
  · cases h
  · next middle front i' hi =>
    split at h
    · cases h
    · next map'' back items'' htail =>
      simp only [Prod.mk.injEq, Except.ok.injEq] at h
      obtain ⟨⟨rfl, rfl⟩, rfl⟩ := h
      exact ⟨middle, front, i', back, items'', hi, htail, rfl, rfl⟩

theorem clearFrom_writeAll {items items' : List Item} (hi : ∀ i ∈ items, i.Sound)
    {map map' : PresenceMap} {bytes : List UInt8}
    (h : writeAll items map = (.ok (map', bytes), items')) {next : Nat}
    (hbits : BitsFrom next (items.map bit?)) (hclear : map.ClearFrom next) :
    ∀ n < next, map'.isSet n = map.isSet n := by
  induction items generalizing map bytes items' next with
  | nil =>
    simp only [writeAll, Prod.mk.injEq, Except.ok.injEq] at h
    obtain ⟨⟨rfl, -⟩, -⟩ := h
    exact fun _ _ => rfl
  | cons i items ih =>
    obtain ⟨middle, front, i', back, items'', hwrite, htail, -, -⟩ := writeAll_cons_eq_ok h
    obtain ⟨w, hw, rfl⟩ := write_carrier (hi i (by simp)) hwrite
    rw [List.map_cons, ← bit_carrier] at hbits
    obtain ⟨next', hle, hbits', hclear', hbelow, -⟩ := Field.clearFrom_write hw hbits hclear
    intro n hn
    rw [ih (fun i h => hi i (List.mem_cons_of_mem _ h)) htail hbits' hclear' n (by omega),
      hbelow n hn]

theorem sound_of_moved {items items' : List Item} (h : List.Forall₂ Moved items items')
    (hi : ∀ i ∈ items, i.Sound) :
    (∀ i ∈ items', i.Sound) ∧ items'.map bit? = items.map bit? := by
  induction h with
  | nil => exact ⟨hi, rfl⟩
  | cons h _ ih =>
    rw [List.forall_mem_cons] at hi
    obtain ⟨hi', hbit⟩ := h.sound hi.1
    obtain ⟨hrest, hbits⟩ := ih hi.2
    exact ⟨List.forall_mem_cons.2 ⟨hi', hrest⟩, by rw [List.map_cons, List.map_cons, hbit, hbits]⟩

theorem readAll_completes {items ritems : List Item} (hagree : List.Forall₂ Agrees items ritems)
    (hi : ∀ i ∈ items, i.Sound) (hr : ∀ r ∈ ritems, r.Rectangular) (hs : ∀ i ∈ items, i.Sendable)
    {next : Nat} (hbits : BitsFrom next (items.map bit?)) {map map' : PresenceMap}
    (hclear : map.ClearFrom next) {bytes : List UInt8} {items' : List Item}
    (h : writeAll items map = (.ok (map', bytes), items')) {sent : PresenceMap}
    (hsent : ∀ n, sent.isSet n = map'.isSet n) :
    ∃ ritems', Completes (readAll sent ritems .length) bytes ritems' ∧
      List.Forall₂ Agrees items' ritems' ∧ (∀ r ∈ ritems', r.Rectangular) ∧
      List.Forall₂ Conveys items ritems' := by
  induction hagree generalizing next map bytes items' with
  | nil =>
    simp only [writeAll, Prod.mk.injEq, Except.ok.injEq] at h
    obtain ⟨⟨rfl, rfl⟩, rfl⟩ := h
    exact ⟨[], .finished _, .nil, by simp, .nil⟩
  | @cons i r items ritems hir hagree ih =>
    obtain ⟨middle, front, i', back, items'', hwrite, htail, rfl, rfl⟩ := writeAll_cons_eq_ok h
    obtain ⟨w, hw, rfl⟩ := write_carrier (hi i (by simp)) hwrite
    rw [List.map_cons, ← bit_carrier] at hbits
    obtain ⟨next', hle, hbits', hclear', hbelow, hmarked⟩ := Field.clearFrom_write hw hbits hclear
    have htailSound (i : Item) (h : i ∈ items) := hi i (List.mem_cons_of_mem _ h)
    have hmarks : i.carrier.isMarked sent = i.carrier.marks := by
      refine hmarked sent fun n hn => ?_
      rw [hsent, clearFrom_writeAll htailSound htail hbits' hclear' n hn]
    obtain ⟨r', hread, hagree', hrect, hconveys⟩ := hir.read_completes (hi i (by simp))
      (hr r (by simp)) (hs i (by simp)) hwrite hmarks
    obtain ⟨ritems', hreads, hagrees, hrects, hconveyss⟩ := ih htailSound
      (fun r h => hr r (List.mem_cons_of_mem _ h)) (fun i h => hs i (List.mem_cons_of_mem _ h))
      hbits' hclear' htail
    refine ⟨r' :: ritems', ?_, .cons hagree' hagrees, ?_, .cons hconveys hconveyss⟩
    · rw [readAll_cons]
      exact .andThen hread (hreads.within _ _) _ _
    · intro r'' hr''
      rcases List.mem_cons.1 hr'' with rfl | hr''
      · exact hrect
      · exact hrects r'' hr''

end Item

/-! ## Messages -/

namespace Message

/-- Both sides declare and remember the same of every item. -/
structure Agrees (m r : Message) : Prop where
  id : r.id = m.id
  resets : r.resets = m.resets
  items : List.Forall₂ Item.Agrees m.items r.items

/-- What a message of a template is, whatever is put into it; bit 0 is the template id's. -/
structure Sound (m : Message) : Prop where
  items : ∀ i ∈ m.items, i.Sound
  bits : BitsFrom 1 (m.items.map Item.bit?)

def Rectangular (m : Message) : Prop := ∀ i ∈ m.items, i.Rectangular

def Sendable (m : Message) : Prop := ∀ i ∈ m.items, i.Sendable

instance (m : Message) : Decidable m.Sendable :=
  inferInstanceAs (Decidable (∀ i ∈ m.items, i.Sendable))

/-- The received message is what the one sent stands for, item by item. -/
structure Conveys (m r : Message) : Prop where
  id : r.id = m.id
  items : List.Forall₂ Item.Conveys m.items r.items

theorem write_eq_ok {m m' : Message} {map map' : PresenceMap} {bytes : List UInt8}
    (h : m.write map = (.ok (map', bytes), m')) :
    ∃ items, Item.writeAll m.items map = (.ok (map', bytes), items) ∧ m' = { m with items } := by
  simp only [write, Prod.mk.injEq] at h
  exact ⟨_, Prod.ext h.1 rfl, h.2.symm⟩

theorem Agrees.read_completes {m m' r : Message} (h : m.Agrees r) (hm : m.Sound)
    (hr : r.Rectangular) (hs : m.Sendable) {map map' : PresenceMap} (hclear : map.ClearFrom 1)
    {bytes : List UInt8} (hw : m.write map = (.ok (map', bytes), m')) {sent : PresenceMap}
    (hsent : ∀ n, sent.isSet n = map'.isSet n) :
    ∃ r', Completes (r.read sent {}) bytes r' ∧ m'.Agrees r' ∧ r'.Rectangular ∧ m.Conveys r' := by
  obtain ⟨items, hitems, rfl⟩ := write_eq_ok hw
  obtain ⟨ritems, hread, hagree, hrect, hconveys⟩ :=
    Item.readAll_completes h.items hm.items hr hs hm.bits hclear hitems hsent
  exact ⟨{ r with items := ritems }, hread.within _ _, ⟨h.id, h.resets, hagree⟩, hrect,
    ⟨h.id, hconveys⟩⟩

theorem Sound.write {m : Message} (h : m.Sound) (map : PresenceMap) : (m.write map).2.Sound := by
  obtain ⟨hsound, hbits⟩ := Item.sound_of_moved (Item.moved_writeAll m.items map) h.items
  refine ⟨hsound, ?_⟩
  change BitsFrom 1 ((Item.writeAll m.items map).2.map Item.bit?)
  rw [hbits]
  exact h.bits

end Message

end MarketFeed
