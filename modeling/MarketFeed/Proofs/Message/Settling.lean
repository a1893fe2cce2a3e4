import MarketFeed.Proofs.Group.Contract

/-!
# What a read settles

A read that comes to its end leaves nothing open: every field of the message, every length and every
cell of the rows holds a value of its kind, or is empty if it was declared optional. None of them is
as it was before the first message: `Message.Formed.read_settles`. Where a read runs dry, this is
true only of what it is past.
-/

namespace MarketFeed

/-! ## Values -/

/-- NULL is for optional fields. -/
def NullOnly {α : Type} (optional : Bool) (a? : Option α) : Prop := a? = none → optional = true

section NullOnly

variable {α β : Type} {optional : Bool}

theorem nullOnly_some (a : α) : NullOnly optional (some a) := nofun

theorem NullOnly.map {a? : Option α} (h : NullOnly optional a?) (f : α → β) :
    NullOnly optional (a?.map f) := fun hnone => h (Option.map_eq_none_iff.1 hnone)

/-- A NULL in front stands for the whole. -/
theorem bind_nullOnly {read : Read (Option α)} {next : Option α → Read (Option β)}
    (h : read.Yields (NullOnly optional)) (hnone : next none = pure none)
    (hsome : ∀ a, (next (some a)).Yields (NullOnly optional)) :
    (read >>= next).Yields (NullOnly optional) := by
  refine .bind h fun a? ha => ?_
  cases a? with
  | none =>
    rw [hnone]
    exact .pure fun _ => ha rfl
  | some a => exact hsome a

theorem nullableInt_nullOnly (optional : Bool) :
    (Read.nullableInt optional).Yields (NullOnly optional) :=
  .bind (.trivial _) fun v _ => .pure (by cases optional <;> simp [NullOnly])

theorem nullableUInt_nullOnly (optional : Bool) :
    (Read.nullableUInt optional).Yields (NullOnly optional) :=
  .bind (.trivial _) fun v _ => .pure (by cases optional <;> simp [NullOnly])

theorem nullablePair_nullOnly (optional : Bool) :
    (Read.nullablePair optional).Yields (NullOnly optional) :=
  bind_nullOnly (nullableInt_nullOnly optional) rfl fun a =>
    .bind (.trivial _) fun b _ => .pure (nullOnly_some (a, b))

theorem textOfRun_nullOnly (optional : Bool) (run : List UInt8) :
    NullOnly optional (textOfRun optional run) := by
  cases optional with
  | true => exact fun _ => rfl
  | false =>
    unfold textOfRun
    split <;> exact nullOnly_some _

theorem readVector_nullOnly (optional unicode : Bool) :
    (readVector optional unicode).Yields (NullOnly optional) := by
  refine bind_nullOnly (nullableUInt_nullOnly optional) rfl fun length => ?_
  refine .ite (fun _ => .fail _) fun _ => .bind (.trivial _) fun data _ => ?_
  exact .ite (fun _ => .fail _) fun _ => .pure (nullOnly_some data)

end NullOnly

theorem Decl.readValue_nullOnly (d : Decl) : d.readValue.Yields (NullOnly d.isOptional) := by
  unfold Decl.readValue
  cases d.kind with
  | int => exact .bind (nullableInt_nullOnly _) fun v? hv => .pure (hv.map _)
  | uint => exact .bind (nullableUInt_nullOnly _) fun v? hv => .pure (hv.map _)
  | ascii => exact .bind (.trivial _) fun run _ => .pure ((textOfRun_nullOnly _ run).map _)
  | unicode => exact .bind (readVector_nullOnly _ _) fun v? hv => .pure (hv.map _)
  | bytes => exact .bind (readVector_nullOnly _ _) fun v? hv => .pure (hv.map _)
  | sequence => exact .fail _
  | decimal =>
    refine bind_nullOnly (nullablePair_nullOnly _) rfl fun pair => ?_
    exact .bind (.trivial _) fun v _ => .pure (nullOnly_some v)

theorem Field.readDelta_nullOnly (f : Field) : f.readDelta.Yields (NullOnly f.decl.isOptional) := by
  unfold Field.readDelta
  split
  case h_1 | h_2 =>
    refine bind_nullOnly (nullableInt_nullOnly _) rfl fun delta => ?_
    exact .bind (.trivial _) fun v _ => .pure (nullOnly_some v)
  case h_3 =>
    refine bind_nullOnly (nullablePair_nullOnly _) rfl fun pair => ?_
    exact .bind (.trivial _) fun v _ => .pure (nullOnly_some v)
  case h_4 => exact .fail _

/-! ## Fields -/

namespace Decl

/-- The states that a message may leave a field in. -/
def Permits (d : Decl) (state : State) : Prop :=
  state = .assigned ∨ d.isOptional = true ∧ state = .empty

/-- What a message may leave in a field: a value of its kind, or nothing if it is optional. -/
def Settles (d : Decl) (e : Entry) : Prop :=
  e.state = .assigned ∧ e.value.hasKind d.kind = true ∨ d.isOptional = true ∧ e.state = .empty

theorem Permits.settles {d : Decl} {e : Entry} (h : d.Permits e.state)
    (hkind : e.value.hasKind d.kind = true) : d.Settles e :=
  h.imp_left fun hassigned => ⟨hassigned, hkind⟩

end Decl

namespace Field

variable {f f' : Field} {v? : Option Value} {map : PresenceMap}

theorem permits_receive (h : NullOnly f.decl.isOptional v?) :
    f.decl.Permits (f.receive v?).current.state := by
  cases v? with
  | some v => exact .inl rfl
  | none => exact .inr ⟨h rfl, rfl⟩

theorem permits_receiveKept (h : NullOnly f.decl.isOptional v?) :
    f.decl.Permits (f.receiveKept v?).current.state := by
  cases v? with
  | some v => exact .inl rfl
  | none => exact .inr ⟨h rfl, rfl⟩

theorem permits_receiveDelta (h : NullOnly f.decl.isOptional v?) :
    f.decl.Permits (f.receiveDelta v?).current.state := by
  cases v? with
  | some v => exact .inl rfl
  | none => exact .inr ⟨h rfl, rfl⟩

theorem permits_inherit (h : f.inherit = .ok f') : f.decl.Permits f'.current.state := by
  rcases inherit_eq_ok h with ⟨v, rfl, -⟩ | ⟨rfl, hoptional, -⟩
  · exact permits_receiveKept (nullOnly_some v)
  · exact permits_receiveKept fun _ => hoptional

theorem permits_takeConstant (h : f.takeConstant map = .ok f') :
    f.decl.Permits f'.current.state := by
  rcases takeConstant_eq_ok h with ⟨hoptional, -, rfl⟩ | ⟨v, -, -, rfl⟩
  · exact .inr ⟨hoptional, rfl⟩
  · exact .inl rfl

/-- Whatever the dictionary and the map are, a read does not leave the field as it was. -/
theorem read_permits (f : Field) (map : PresenceMap) :
    (f.read map).Yields fun f' => f.decl.Permits f'.current.state := by
  have hvalue := f.decl.readValue_nullOnly
  unfold read
  refine .ite (fun _ => ?_) fun _ => .fail _
  cases f.decl.op with
  | none => exact .bind hvalue fun v? hv => .pure (permits_receive hv)
  | delta => exact .bind f.readDelta_nullOnly fun v? hv => .pure (permits_receiveDelta hv)
  | constant => exact .ofExcept fun f' => permits_takeConstant
  | copy | increment =>
    exact .ite (fun _ => .bind hvalue fun v? hv => .pure (permits_receiveKept hv))
      fun _ => .ofExcept fun f' => permits_inherit

theorem Kinded.read_settles (h : f.Kinded) {bytes rest : List UInt8}
    (hread : f.read map bytes = .done f' rest) : f.decl.Settles f'.current := by
  have hdecl := congrArg Prod.fst ((f.read_yields_frame map).of_done hread)
  have hkind := ((h.read_meets map).done hread).1.current
  rw [show f'.decl = f.decl from hdecl] at hkind
  exact ((f.read_permits map).of_done hread).settles hkind

end Field

/-! ## Rows -/

namespace Group

variable {fields : List Field} {rows : List Row} {bytes rest : List UInt8} {ds : List Decl}
  {s : List Field × Row} {t : List Field × List Row}

/-- The cells of a row that has been read. -/
theorem readCells_settles {map : PresenceMap} {row : Row} (h : AllKinded fields)
    (hrow : row.length = fields.length)
    (hread : readCells map fields row bytes = ⟨s, .done, rest⟩) :
    List.Forall₂ Decl.Settles (fields.map Field.decl) s.2 := by
  induction fields generalizing row bytes s with
  | nil =>
    obtain rfl := List.eq_nil_of_length_eq_zero hrow
    obtain ⟨rfl, -⟩ := Progress.mk.inj hread
    exact .nil
  | cons f fields ih =>
    obtain ⟨entry, row, rfl⟩ := List.exists_cons_of_length_eq_add_one hrow
    obtain ⟨hf, hfields⟩ := List.forall_mem_cons.1 h
    rw [readCells_cons] at hread
    obtain ⟨f', middle, hcell, hread⟩ := Progress.afterToken_eq_done hread
    obtain ⟨s, hrest, rfl⟩ := Progress.within_eq_done hread
    exact .cons (hf.read_settles (readCell_eq_done hcell).2)
      (ih hfields (by simpa using hrow) hrest)

/-- Whatever stood in the rows, each is read anew, by the fields as the one before it left them. -/
theorem readRows_settles {withMap : Bool} (h : AllKinded fields)
    (hds : fields.map Field.decl = ds) (hrows : ∀ row ∈ rows, row.length = ds.length)
    (hread : readRows withMap fields rows {} bytes = ⟨t, .done, rest⟩) :
    ∀ row ∈ t.2, List.Forall₂ Decl.Settles ds row := by
  induction rows generalizing fields bytes t with
  | nil =>
    obtain ⟨rfl, -⟩ := Progress.mk.inj hread
    simp
  | cons row rows ih =>
    obtain ⟨hrow, hrows⟩ := List.forall_mem_cons.1 hrows
    rw [readRows_cons] at hread
    obtain ⟨map, middle, -, hread⟩ := Progress.afterToken_eq_done hread
    obtain ⟨s, middle', hcells, hread⟩ := Progress.andThen_eq_done hread
    obtain ⟨t, hlater, rfl⟩ := Progress.within_eq_done hread
    rw [readRow_zero] at hcells
    have hkinded := (readCells_upholds map h row middle).state
    have hframe := frame_readCells map fields row middle
    rw [hcells] at hkinded hframe
    have hsettled := readCells_settles h (by rw [hrow, ← hds, List.length_map]) hcells
    rw [hds] at hsettled
    exact List.forall_mem_cons.2
      ⟨hsettled, ih hkinded ((decls_of_frames hframe).trans hds) hrows hlater⟩

/-! ## Groups -/

/-- The length is settled, and so is every cell of the rows that there are. -/
structure Settled (g : Group) : Prop where
  length : g.length.decl.Settles g.length.current
  rows : ∀ row ∈ g.rows, List.Forall₂ Decl.Settles (g.dictionary.map Field.decl) row

theorem Formed.read_settles {g g' : Group} (h : g.Formed) {map : PresenceMap}
    (hread : g.read map .length bytes = ⟨g', .done, rest⟩) : g'.Settled := by
  rw [read_length] at hread
  obtain ⟨length, middle, hlength, hbody⟩ := Progress.afterToken_eq_done hread
  by_cases hmax : ({ g with length } : Group).transmittedLength.toNat ≤ maxRows
  · rw [readBody_eq hmax] at hbody
    obtain ⟨t, hrows, rfl⟩ := Progress.within_eq_done hbody
    have hwidths : ∀ row ∈ (g.withLength length).rows,
        row.length = (g.dictionary.map Field.decl).length := by
      intro row hrow
      rw [List.length_map]
      exact h.rectangular.withLength length row (List.mem_append_left _ hrow)
    have hdecls := decls_of_frames
      (frame_readRows g.rowsHaveMap g.dictionary (g.withLength length).rows {} middle)
    rw [hrows] at hdecls
    constructor
    · have hdecl := congrArg Prod.fst ((g.length.read_yields_frame map).of_done hlength)
      have hsettled := h.length.read_settles hlength
      rwa [show g.length.decl = length.decl from hdecl.symm] at hsettled
    · intro row hrow
      rw [show t.1.map Field.decl = g.dictionary.map Field.decl from hdecls]
      exact readRows_settles h.dictionary rfl hwidths hrows row hrow
  · rw [readBody_refused (Nat.not_le.1 hmax)] at hbody
    cases hbody

end Group

/-! ## Messages -/

namespace Item

def Settled : Item → Prop
  | scalar f => f.decl.kind ≠ .sequence ∧ f.decl.Settles f.current
  | group g => g.Settled

theorem Formed.read_settles {i i' : Item} (h : i.Formed) {map : PresenceMap}
    {bytes rest : List UInt8} (hread : i.read map .length bytes = ⟨i', .done, rest⟩) :
    i'.Settled := by
  cases i with
  | group g =>
    obtain ⟨g', hgroup, rfl⟩ := Progress.within_eq_done hread
    exact Group.Formed.read_settles h hgroup
  | scalar f =>
    rw [read_scalar] at hread
    obtain ⟨f', middle, hfield, hread⟩ := Progress.afterToken_eq_done hread
    obtain ⟨rfl, -⟩ := Progress.mk.inj hread
    -- A field that was declared as a group without rows is never read.
    have hrowless : ¬f.IsRowless := by
      intro hrowless
      rw [hrowless.read_eq] at hfield
      cases hfield
    have hdecl : f'.decl = f.decl :=
      congrArg Prod.fst ((f.read_yields_frame map).of_done hfield)
    have hsettled := (Field.Formed.kinded h hrowless).read_settles hfield
    rw [← hdecl] at hsettled
    exact ⟨by rwa [hdecl], hsettled⟩

theorem readAll_settles {items items' : List Item} (h : ∀ i ∈ items, i.Formed) {map : PresenceMap}
    {bytes rest : List UInt8} (hread : readAll map items .length bytes = ⟨items', .done, rest⟩) :
    ∀ i ∈ items', i.Settled := by
  induction items generalizing bytes items' with
  | nil =>
    obtain ⟨rfl, -⟩ := Progress.mk.inj hread
    simp
  | cons i items ih =>
    obtain ⟨hi, hitems⟩ := List.forall_mem_cons.1 h
    rw [readAll_cons] at hread
    obtain ⟨i', middle, hitem, hread⟩ := Progress.andThen_eq_done hread
    obtain ⟨items', hlater, rfl⟩ := Progress.within_eq_done hread
    exact List.forall_mem_cons.2 ⟨hi.read_settles hitem, ih hitems hlater⟩

end Item

/-- Nothing in the message is left open. -/
def Message.Settled (m : Message) : Prop := ∀ i ∈ m.items, i.Settled

theorem Message.Formed.read_settles {m m' : Message} (h : m.Formed) {map : PresenceMap}
    {bytes rest : List UInt8} (hread : m.read map {} bytes = ⟨m', .done, rest⟩) : m'.Settled := by
  obtain ⟨items, hitems, rfl⟩ := Progress.within_eq_done hread
  exact Item.readAll_settles h hitems

end MarketFeed
