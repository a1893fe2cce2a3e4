import MarketFeed.Proofs.Group.Errors
import MarketFeed.Proofs.Stream.Contract
import MarketFeed.Proofs.Stream.Failure

/-!
# What an accepted set is refused for

Acceptance does not quite make sure that a codec can use a declaration: a field that was declared as
a group, but without rows, passes, and no operator is allowed on it. This is the only way in which a
declaration of an accepted set is refused later, by a decoder or by an encoder, and each template
with such a field is lost as a whole: none of its messages can be decoded or encoded.
-/

namespace MarketFeed

/-! ## Encoding -/

/-- Whether the error is about how a field was declared, whatever it contains. -/
def EncodeError.refuses : EncodeError → Bool
  | invalidOperator _ _ | nestedSequence => true
  | _ => false

/-- If it fails, it is for no fault of a declaration. -/
def Spares {α : Type} (x : Except EncodeError α) : Prop := FailsWith (·.refuses = false) x

theorem EncodeError.refuses_of_ofValue {e : EncodeError} (h : e.ofValue = true) :
    e.refuses = false := by
  cases e <;> first | rfl | cases h

namespace Field

variable {f : Field}

/-- A field is refused for its operator only. -/
theorem write_spares (hallowed : f.decl.op.allowedOn f.decl.kind = true) (map : PresenceMap) :
    Spares (f.write map) :=
  write_failsWith (fun _ => EncodeError.refuses_of_ofValue)
    (fun h => by rw [hallowed] at h; cases h) rfl fun _ _ => rfl

theorem IsRowless.write_eq (h : f.IsRowless) (map : PresenceMap) :
    f.write map = .error (.invalidOperator f.decl.id f.decl.op) := by
  have hallowed : f.decl.op.allowedOn f.decl.kind = false :=
    Bool.eq_false_iff.2 fun hallowed => kind_ne_sequence hallowed h
  rw [write, checkSendable, hallowed]
  rfl

end Field

namespace Group

/-- The operators of a dictionary are allowed, so that none of its fields is a group. -/
def AllAllowed (fields : List Field) : Prop :=
  ∀ f ∈ fields, f.decl.op.allowedOn f.decl.kind = true

theorem AllAllowed.cellsFailWith {fields : List Field} (h : AllAllowed fields) :
    CellsFailWith (·.refuses = false) fields := by
  intro f hf
  obtain ⟨f', hf', hframe⟩ := List.mem_map.1 hf
  have hdecl : f'.decl = f.decl := congrArg Prod.fst hframe
  have hallowed := h f' hf'
  rw [hdecl] at hallowed
  exact ⟨fun hkind => absurd hkind (Field.kind_ne_sequence hallowed),
    Field.write_spares hallowed⟩

theorem write_spares {g : Group} (hlength : g.length.decl.op.allowedOn g.length.decl.kind = true)
    (hdictionary : AllAllowed g.dictionary) (map : PresenceMap) : Spares (g.write map).1 :=
  write_failsWith (fun _ _ => rfl) (Field.write_spares hlength map) hdictionary.cellsFailWith

end Group

/-! ## Declarations without rows -/

namespace FieldSpec

/-- Declared as a group, but without rows. -/
def IsRowless : FieldSpec → Prop
  | scalar d => d.kind = .sequence
  | group .. => False

instance : (s : FieldSpec) → Decidable s.IsRowless
  | scalar d => inferInstanceAs (Decidable (d.kind = .sequence))
  | group .. => inferInstanceAs (Decidable False)

variable {s : FieldSpec} {i : Item}

theorem IsRowless.scalar_of_declaredBy (h : s.IsRowless) (hi : Item.DeclaredBy s i) :
    ∃ f, i = .scalar f ∧ f.IsRowless ∧ f.decl = s.decl := by
  cases s with
  | group d length row => cases h
  | scalar d =>
    cases i with
    | group g => cases hi
    | scalar f => exact ⟨f, rfl, (congrArg Decl.kind hi).trans h, hi⟩

theorem isRowless_of_declaredBy {f : Field} (hi : Item.DeclaredBy s (.scalar f))
    (hf : f.IsRowless) : s.IsRowless ∧ f.decl = s.decl := by
  cases s with
  | group d length row => cases hi
  | scalar d => exact ⟨(congrArg Decl.kind hi).symm.trans hf, hi⟩

end FieldSpec

namespace Item

variable {t : Template} {s : FieldSpec} {i : Item}

/-- What is refused of an item is that it is rowless. -/
theorem DeclaredBy.write_refused (hi : DeclaredBy s i) (hs : t.checkSpec s = .ok ())
    {map : PresenceMap} {e : EncodeError} (h : (i.write map).1 = .error e)
    (he : e.refuses = true) : s.IsRowless ∧ e = .invalidOperator s.decl.id s.decl.op := by
  have spared {α : Type} {x : Except EncodeError α} (hx : Spares x) (h : x = .error e) : False := by
    rw [hx e h] at he
    cases he
  cases s with
  | scalar d =>
    cases i with
    | group g => cases hi
    | scalar f =>
      obtain rfl : f.decl = d := hi
      have hwrite : f.write map = .error e := by
        unfold write at h
        cases hw : f.write map with
        | error e' => simpa [hw] using h
        | ok w => simp [hw] at h
      by_cases hrowless : f.IsRowless
      · rw [hrowless.write_eq] at hwrite
        exact ⟨hrowless, (Except.error.inj hwrite).symm⟩
      -- What is not rowless had its operator checked when the template was accepted.
      · obtain ⟨⟨⟩, hdecl, -⟩ := Except.bind_eq_ok hs
        exact (spared (Field.write_spares
          (Template.valid_of_checkDecl hdecl hrowless).operator map) hwrite).elim
  | group d length row =>
    cases i with
    | scalar f => cases hi
    | group g =>
      obtain ⟨-, hlength, hdictionary⟩ := hi
      obtain ⟨hkind, hcheck, hrow⟩ := Template.checkSpec_group hs
      have hscalar : length.decl.kind ≠ .sequence := by
        rw [hkind]
        decide
      refine (spared (Group.write_spares ?_ (fun f hf => ?_) map) h).elim
      · exact hlength ▸ (Template.valid_of_checkDecl hcheck hscalar).operator
      · have hmem : f.decl ∈ row.map FieldSpec.decl := hdictionary ▸ List.mem_map_of_mem hf
        obtain ⟨r, hr, heq⟩ := List.mem_map.1 hmem
        obtain ⟨hscalar, hdecl⟩ := hrow r hr
        exact heq ▸ (Template.valid_of_checkDecl hdecl hscalar).operator

theorem DeclaredBy.not_rowless_of_write (hi : DeclaredBy s i) {map : PresenceMap}
    {w : PresenceMap × List UInt8} (h : (i.write map).1 = .ok w) : ¬s.IsRowless := by
  intro hrowless
  obtain ⟨f, rfl, hf, -⟩ := hrowless.scalar_of_declaredBy hi
  simp [write, hf.write_eq] at h

/-- Where all is written, nothing is rowless. -/
theorem not_rowless_of_writeAll {specs : List FieldSpec} {items items' : List Item}
    (hitems : List.Forall₂ DeclaredBy specs items) {map map' : PresenceMap} {bytes : List UInt8}
    (h : writeAll items map = (.ok (map', bytes), items')) : ∀ s ∈ specs, ¬s.IsRowless := by
  induction hitems generalizing map bytes items' with
  | nil => simp
  | cons hi _ ih =>
    obtain ⟨middle, front, i', back, items'', hwrite, htail, -, -⟩ := writeAll_cons_eq_ok h
    exact List.forall_mem_cons.2
      ⟨hi.not_rowless_of_write (congrArg Prod.fst hwrite), ih htail⟩

end Item

/-! ## What a decoder gets past -/

/-- How far a read of fields got: none that it is past is rowless. -/
def FieldSpec.PassedBy (specs : List FieldSpec) : Ending Place → Prop
  | .done => ∀ s ∈ specs, ¬s.IsRowless
  | .dry place => ∀ s ∈ specs.take place.item, ¬s.IsRowless
  | .garbled _ => True

open FieldSpec (PassedBy)

theorem Item.DeclaredBy.not_rowless_of_read {s : FieldSpec} {i : Item} (hi : DeclaredBy s i)
    (map : PresenceMap) (place : GroupPlace) (bytes : List UInt8)
    (h : (i.read map place bytes).ending = .done) : ¬s.IsRowless := by
  intro hrowless
  obtain ⟨f, rfl, hf, -⟩ := hrowless.scalar_of_declaredBy hi
  rw [read_scalar, Progress.afterToken, hf.read_eq] at h
  cases h

theorem Item.readAll_passes {specs : List FieldSpec} {items : List Item}
    (h : List.Forall₂ DeclaredBy specs items) (map : PresenceMap) (place : GroupPlace)
    (bytes : List UInt8) : PassedBy specs (readAll map items place bytes).ending := by
  induction h generalizing place bytes with
  | nil => simp [readAll, PassedBy]
  | @cons s i specs items hi _ ih =>
    have hhead := hi.not_rowless_of_read map place bytes
    rw [readAll_cons, Progress.andThen]
    generalize i.read map place bytes = p at hhead ⊢
    obtain ⟨i', ending, rest⟩ := p
    cases ending with
    | garbled e => trivial
    | dry k => simp [PassedBy]
    | done =>
      have htail := ih .length rest
      have hs : ¬s.IsRowless := hhead rfl
      dsimp only [Progress.within]
      generalize (readAll map items .length rest).ending = ending at htail ⊢
      cases ending with
      | garbled e => trivial
      | done => exact List.forall_mem_cons.2 ⟨hs, htail⟩
      | dry k => exact List.forall_mem_cons.2 ⟨hs, htail⟩

theorem Message.DeclaredBy.read_passes {t : Template} {m : Message} (hm : m.DeclaredBy t)
    (map : PresenceMap) {place : Place} (hplace : ∀ s ∈ t.fields.take place.item, ¬s.IsRowless)
    (bytes : List UInt8) : PassedBy t.fields (m.read map place bytes).ending := by
  have hback := Item.readAll_passes (List.forall₂_drop place.item hm.items) map place.group bytes
  unfold Message.read
  dsimp only [Progress.within]
  generalize (Item.readAll map (m.items.drop place.item) place.group bytes).ending = ending at hback ⊢
  cases ending with
  | garbled e => trivial
  | done =>
    have hall := List.forall_mem_append.2 ⟨hplace, hback⟩
    rwa [List.take_append_drop] at hall
  | dry k =>
    have hall := List.forall_mem_append.2 ⟨hplace, hback⟩
    rwa [← List.take_add] at hall

/-- In the middle of a message, no field that is behind is rowless. -/
def Stage.Passed (set : TemplateSet) : Stage → Prop
  | .filling _ slot place =>
    ∀ t, set.templates[slot]? = some t → ∀ s ∈ t.fields.take place.item, ¬s.IsRowless
  | _ => True

namespace Decoder

variable {set : TemplateSet} {d : Decoder} {ms : Messages}

/-- The slots have the declarations of the set, whatever is in them. -/
def Declared (set : TemplateSet) (ms : Messages) : Prop :=
  List.Forall₂ (fun t m => m.DeclaredBy t) set.templates ms

/-- Neither what is delivered nor what is under way has got past a rowless field. -/
structure Passes (set : TemplateSet) (p : Progress Holding Stage) : Prop where
  delivered : p.ending = .done → ∀ t, set.templates[p.state.2.2]? = some t →
    ∀ s ∈ t.fields, ¬s.IsRowless
  underway : ∀ stage, p.ending = .dry stage → stage.Passed set

theorem Passes.refused (s : Holding) (e : DecodeError) (rest : List UInt8) :
    Passes set ⟨s, .garbled e, rest⟩ where
  delivered h := by cases h
  underway stage h := by cases h

theorem Passes.ranDry (s : Holding) {stage : Stage} (h : stage.Passed set) (rest : List UInt8) :
    Passes set ⟨s, .dry stage, rest⟩ where
  delivered h := by cases h
  underway stage' hstage := by
    obtain rfl := Ending.dry.inj hstage
    exact h

theorem fill_passes (hms : Declared set ms) (d : Decoder) (map : PresenceMap) {slot : Nat}
    {place : Place} (hplace : (Stage.filling map slot place).Passed set) (bytes : List UInt8) :
    Passes set (d.fill ms map slot place bytes).progress := by
  cases hm : ms[slot]? with
  | none =>
    rw [progress_fill_none hm]
    exact .refused _ _ bytes
  | some m =>
    have hread (t : Template) (ht : set.templates[slot]? = some t) :
        PassedBy t.fields (m.read map place bytes).ending := by
      obtain ⟨m', hm', hdeclared⟩ := exists_of_forall₂ hms ht
      obtain rfl := Option.some.inj (hm.symm.trans hm')
      exact hdeclared.read_passes map (hplace t ht) bytes
    rw [progress_fill hm, fillFrom, Progress.andThen]
    generalize m.read map place bytes = p at hread ⊢
    obtain ⟨m', ending, rest⟩ := p
    cases ending with
    | garbled e => exact .refused _ e rest
    | done => exact ⟨fun _ t ht => hread t ht, fun stage hstage => by cases hstage⟩
    | dry k => exact .ranDry _ (by exact hread) rest

theorem afterMap_passes (hms : Declared set ms) (d : Decoder) (map : PresenceMap)
    (bytes : List UInt8) : Passes set (d.afterMap ms map bytes).progress := by
  rw [congrFun (progress_afterMap d ms map) bytes, Progress.afterToken]
  cases d.readSlot ms map bytes with
  | done slot rest => exact fill_passes hms d map (fun t _ s hs => by simp at hs) rest
  | garbled e rest => exact .refused _ e rest
  | dry => exact .ranDry _ (by trivial) bytes

theorem resumeFrom_passes (hms : Declared set ms) (lastSlot : Option Nat) {stage : Stage}
    (hstage : stage.Passed set) (bytes : List UInt8) :
    Passes set (resumeFrom (lastSlot, ms, 0) stage bytes) := by
  cases stage with
  | filling map slot place => exact fill_passes hms _ map hstage bytes
  | mapped map => exact afterMap_passes hms _ map bytes
  | idle =>
    rw [progress_resume_idle, Progress.afterToken]
    cases PresenceMap.read bytes with
    | done map rest => exact afterMap_passes hms _ map rest
    | garbled e rest => exact .refused _ e rest
    | dry => exact .ranDry _ (by trivial) bytes

/-- A call keeps the decoder in front of rowless fields, and delivers no message that has any. -/
theorem decode_passes (hms : Declared set ms) (hstage : d.stage.Passed set)
    (buffer : List UInt8) :
    (d.decode ms buffer).decoder.stage.Passed set ∧
      ∀ slot, (d.decode ms buffer).result = .ok slot →
        ∀ t, set.templates[slot]? = some t → ∀ s ∈ t.fields, ¬s.IsRowless := by
  have hpasses := resumeFrom_passes hms d.lastSlot hstage buffer
  rw [decode_eq]
  generalize resumeFrom (d.lastSlot, ms, 0) d.stage buffer = p at hpasses ⊢
  obtain ⟨s, ending, rest⟩ := p
  cases ending with
  | garbled e => exact ⟨trivial, nofun⟩
  | dry stage => exact ⟨hpasses.underway stage rfl, nofun⟩
  | done =>
    refine ⟨trivial, fun slot hslot => ?_⟩
    obtain rfl := Except.ok.inj hslot
    exact hpasses.delivered rfl

theorem Visited.passed (h : Visited set d ms) : d.stage.Passed set := by
  induction h with
  | fresh => trivial
  | decode h buffer ih => exact (decode_passes h.keeps.declared ih buffer).1
  | abandon _ _ => trivial
  | reset _ _ => trivial
  | resetAt _ _ ih => exact ih

end Decoder

/-! ## What is refused -/

theorem exists_mem_of_forall₂ {α β : Type} {R : α → β → Prop} {xs : List α} {ys : List β}
    (h : List.Forall₂ R xs ys) {y : β} (hy : y ∈ ys) : ∃ x ∈ xs, R x y := by
  induction h with
  | nil => simp at hy
  | @cons a b xs ys hab _ ih =>
    rcases List.mem_cons.1 hy with rfl | hy
    · exact ⟨a, List.mem_cons_self, hab⟩
    · obtain ⟨x, hx, hxy⟩ := ih hy
      exact ⟨x, List.mem_cons_of_mem _ hx, hxy⟩

/-- One of the fields is declared, with this id and operator, as a group without rows. -/
def Template.DeclaresRowless (t : Template) (id : UInt32) (op : Operator) : Prop :=
  ∃ s ∈ t.fields, s.IsRowless ∧ s.decl.id = id ∧ s.decl.op = op

variable {set : TemplateSet} {t : Template} {m : Message}

theorem Decoder.Visited.decode_refused {d : Decoder} {ms : Messages} (h : Visited set d ms)
    {buffer : List UInt8} {e : DecodeError} (he : (d.decode ms buffer).result = .error (.garbled e))
    (hrefuses : e.refuses = true) :
    ∃ t ∈ set.templates, ∃ id op, t.DeclaresRowless id op ∧ e = .invalidOperator id op := by
  obtain ⟨m, hm, f, hf, hrowless, rfl⟩ :=
    (decode_upheld h.formed d buffer).explained e he hrefuses
  obtain ⟨t, ht, hdeclared⟩ := exists_mem_of_forall₂ h.keeps.declared hm
  obtain ⟨s, hs, hitem⟩ := exists_mem_of_forall₂ hdeclared.items hf
  obtain ⟨hs', hdecl⟩ := FieldSpec.isRowless_of_declaredBy hitem hrowless
  exact ⟨t, ht, _, _, ⟨s, hs, hs', by rw [hdecl], by rw [hdecl]⟩, rfl⟩

theorem Message.DeclaredBy.encode_refused (hm : m.DeclaredBy t) (ht : t.validate = .ok ())
    {enc : Encoder} {e : EncodeError} (he : (enc.encode m).result = .error e)
    (hrefuses : e.refuses = true) :
    ∃ id op, t.DeclaresRowless id op ∧ e = .invalidOperator id op := by
  have hwrite := congrArg Prod.fst (Encoder.encode_eq_error he).1
  rcases hitems : Item.writeAll m.items (enc.start m) with ⟨written, items'⟩
  rw [write, hitems] at hwrite
  obtain rfl : written = .error e := hwrite
  obtain ⟨front, i, back, map, bytes, front', i', hsplit, -, hi, -⟩ := Item.writeAll_eq_error hitems
  obtain ⟨s, hs, hitem⟩ := exists_mem_of_forall₂ hm.items (y := i) (by simp [hsplit])
  obtain ⟨hrowless, rfl⟩ := hitem.write_refused (Template.checkSpec_of_validate ht s hs)
    (congrArg Prod.fst hi) hrefuses
  exact ⟨_, _, ⟨s, hs, hrowless, rfl, rfl⟩, rfl⟩

theorem Message.DeclaredBy.not_rowless_of_encode (hm : m.DeclaredBy t) {enc : Encoder}
    {bytes : List UInt8} (h : (enc.encode m).result = .ok bytes) (id : UInt32) (op : Operator) :
    ¬t.DeclaresRowless id op := by
  rintro ⟨s, hs, hrowless, -⟩
  obtain ⟨map, body, items, hwrite, -⟩ := Decoder.encode_eq_ok h
  obtain ⟨items', hitems, -⟩ := Message.write_eq_ok hwrite
  exact Item.not_rowless_of_writeAll hm.items hitems s hs hrowless

namespace Decoder

/--
In whatever state, over whatever bytes and contents, only rowless fields are refused; a template that
has one is lost, and no other is.
-/
theorem refused_rowless_only (set : TemplateSet) {d : Decoder} {ms : Messages}
    (h : Visited set d ms) :
    (∀ buffer e, (d.decode ms buffer).result = .error (.garbled e) → e ≠ .nestedSequence ∧
      ∀ id op, e = .invalidOperator id op → ∃ t ∈ set.templates, t.DeclaresRowless id op) ∧
    (∀ buffer slot, (d.decode ms buffer).result = .ok slot →
      ∀ t id op, set.templates[slot]? = some t → ¬t.DeclaresRowless id op) ∧
    ∀ t ∈ set.templates, ∀ m : Message, m.DeclaredBy t → ∀ enc : Encoder,
      (∀ e, (enc.encode m).result = .error e → e ≠ .nestedSequence ∧
        ∀ id op, e = .invalidOperator id op → t.DeclaresRowless id op) ∧
      ∀ bytes, (enc.encode m).result = .ok bytes → ∀ id op, ¬t.DeclaresRowless id op := by
  have hvalid := (TemplateSet.checkFrom_eq_ok set.checkFrom_templates).1
  refine ⟨fun buffer e he => ⟨?_, ?_⟩, fun buffer slot hslot t id op ht => ?_,
    fun t ht m hm enc => ⟨fun e he => ⟨?_, ?_⟩, fun bytes hbytes => hm.not_rowless_of_encode hbytes⟩⟩
  · rintro rfl
    obtain ⟨-, -, id, op, -, herror⟩ := h.decode_refused he rfl
    cases herror
  · rintro id op rfl
    obtain ⟨t, ht, id', op', hrowless, herror⟩ := h.decode_refused he rfl
    obtain ⟨rfl, rfl⟩ := DecodeError.invalidOperator.inj herror
    exact ⟨t, ht, hrowless⟩
  · rintro ⟨s, hs, hrowless, -⟩
    exact (decode_passes h.keeps.declared h.passed buffer).2 slot hslot t ht s hs hrowless
  · rintro rfl
    obtain ⟨id, op, -, herror⟩ := hm.encode_refused (hvalid t ht).1 he rfl
    cases herror
  · rintro id op rfl
    obtain ⟨id', op', hrowless, herror⟩ := hm.encode_refused (hvalid t ht).1 he rfl
    obtain ⟨rfl, rfl⟩ := EncodeError.invalidOperator.inj herror
    exact hrowless

/-- A template of an ordinary field, and one of a field declared as a group without rows. -/
def rowless : TemplateSet where
  templates := [
    { id := 1, name := "Plain", fields := [.scalar { name := "N", id := 1, kind := .uint }] },
    { id := 2, name := "Rowless", fields := [
      .scalar { name := "N", id := 1, kind := .uint },
      .scalar { name := "S", id := 2, kind := .sequence, op := .delta }] }]
  accepted := rfl

/-- Both ends refuse the second template, though the set has been accepted. -/
theorem refused_rowless :
    (Decoder.fresh.decode rowless.messages [0xC0, 0x82, 0x85]).result =
        .error (.garbled (.invalidOperator 2 .delta)) ∧
      (rowless.messages.map fun m =>
        (Encoder.fresh.encode (m.modify "N" (Item.update fun _ => .assigned (.uint 5)))).result) =
        [.ok [0xC0, 0x81, 0x85], .error (.invalidOperator 2 .delta)] := by
  decide

theorem refused_rowless_only_plain :
    let r := Decoder.fresh.decode rowless.messages [0xC0, 0x82, 0x85]
    Visited rowless r.decoder r.messages ∧
      (r.decoder.decode r.messages [0xC0, 0x82, 0x85]).result =
        .error (.garbled (.invalidOperator 2 .delta)) ∧
      (∃ t ∈ rowless.templates, t.DeclaresRowless 2 .delta) ∧
      (r.decoder.decode r.messages [0xC0, 0x81, 0x85]).result = .ok 0 ∧
      ∀ id op, ¬Template.DeclaresRowless rowless.templates[0] id op := by
  intro r
  have h : Visited rowless r.decoder r.messages := .decode .fresh _
  have hgarbled : (r.decoder.decode r.messages [0xC0, 0x82, 0x85]).result =
      .error (.garbled (.invalidOperator 2 .delta)) := by decide
  have hresult : (r.decoder.decode r.messages [0xC0, 0x81, 0x85]).result = .ok 0 := by decide
  obtain ⟨hrefused, hdelivered, -⟩ := refused_rowless_only rowless h
  exact ⟨h, hgarbled, (hrefused _ _ hgarbled).2 2 .delta rfl, hresult,
    fun id op => hdelivered _ 0 hresult _ id op rfl⟩

end Decoder

end MarketFeed
