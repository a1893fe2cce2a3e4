import MarketFeed.Proofs.Layout
import MarketFeed.Proofs.Message.Settling
import MarketFeed.Proofs.Stream.Headway

/-!
# What a layout finds in a message

A message that was delivered is settled, however its bytes were cut and whatever the slots held
before. So the positions that a layout was resolved to answer: a field that is mandatory there has a
value, and one of the kind that is read: `Decoder.Orderly.decode_settles`.
-/

namespace MarketFeed

/-! ## Messages of a template -/

/-- The item is as a message leaves what was specified. -/
def Item.SettledBy : FieldSpec → Item → Prop
  | .scalar d, scalar f => d.kind ≠ .sequence ∧ d.Settles f.current
  | .group _ length row, group g =>
    length.decl.Settles g.length.current ∧
      ∀ cells ∈ g.rows, List.Forall₂ Decl.Settles (row.map FieldSpec.decl) cells
  | _, _ => False

/-- The message is as one of the template is when it has been read. -/
def Message.SettledBy (t : Template) (m : Message) : Prop :=
  List.Forall₂ Item.SettledBy t.fields m.items

theorem Item.DeclaredBy.settledBy {s : FieldSpec} {i : Item} (h : DeclaredBy s i)
    (hi : i.Settled) : SettledBy s i := by
  cases s with
  | scalar d =>
    cases i with
    | group g => cases h
    | scalar f =>
      obtain rfl := h
      exact hi
  | group d length row =>
    cases i with
    | scalar f => cases h
    | group g =>
      obtain ⟨-, hlength, hrow⟩ := h
      obtain ⟨hsettled, hrows⟩ := hi
      rw [hlength] at hsettled
      rw [hrow] at hrows
      exact ⟨hsettled, hrows⟩

theorem Message.DeclaredBy.settledBy {t : Template} {m : Message} (h : m.DeclaredBy t)
    (hm : m.Settled) : m.SettledBy t := by
  have hitems := h.items
  unfold Settled at hm
  unfold SettledBy
  generalize t.fields = specs, m.items = items at hitems hm ⊢
  induction hitems with
  | nil => exact .nil
  | cons hi _ ih =>
    obtain ⟨hhead, htail⟩ := List.forall_mem_cons.1 hm
    exact .cons (hi.settledBy hhead) (ih htail)

/-! ## Calls -/

namespace Decoder

variable {set : TemplateSet} {d : Decoder} {ms : Messages}

/-- A message that was read from its start has been read into the slot that is delivered. -/
theorem resumeFrom_idle_eq_done {lastSlot : Option Nat} {n : Nat} {bytes rest : List UInt8}
    {s : Holding} (h : resumeFrom (lastSlot, ms, n) .idle bytes = ⟨s, .done, rest⟩) :
    ∃ m ∈ ms, ∃ map m' used, m.read map {} used = ⟨m', .done, rest⟩ ∧
      s.2.1[s.2.2]? = some m' := by
  rw [progress_resume_idle] at h
  obtain ⟨map, middle, -, hmap⟩ := Progress.afterToken_eq_done h
  rw [congrFun (progress_afterMap _ ms map) middle] at hmap
  obtain ⟨slot, used, -, hfill⟩ := Progress.afterToken_eq_done hmap
  cases hm : ms[slot]? with
  | none =>
    rw [progress_fill_none hm] at hfill
    cases hfill
  | some m =>
    rw [progress_fill hm] at hfill
    obtain ⟨m', rest, hread, hdone⟩ := Progress.andThen_eq_done hfill
    obtain ⟨rfl, -, rfl⟩ := Progress.mk.inj hdone
    refine ⟨m, List.mem_of_getElem? hm, map, m', used, hread, ?_⟩
    exact List.getElem?_set_self (List.getElem?_eq_some_iff.1 hm).1

/--
The message in flight was begun in formed slots, and what goes on is what one read of all its bytes
would do.
-/
theorem Orderly.exists_start (h : Orderly set d ms) :
    ∃ lastSlot start used, (∀ m ∈ start, Message.Formed m) ∧
      ∀ more, resumeFrom (lastSlot, start, 0) .idle (used ++ more) =
        resumeFrom (d.lastSlot, ms, 0) d.stage more := by
  have of_idle {d : Decoder} {ms : Messages} (h : Orderly set d ms) (hidle : d.stage = .idle) :
      ∃ lastSlot start used, (∀ m ∈ start, Message.Formed m) ∧
        ∀ more, resumeFrom (lastSlot, start, 0) .idle (used ++ more) =
          resumeFrom (d.lastSlot, ms, 0) d.stage more :=
    ⟨d.lastSlot, ms, [], h.visited.formed, fun more => by rw [hidle, List.nil_append]⟩
  induction h with
  | fresh => exact of_idle .fresh rfl
  | abandon h => exact of_idle h.abandon rfl
  | reset h => exact of_idle h.reset rfl
  | resetAt h hidle slot =>
    exact of_idle (h.resetAt hidle slot) (by simpa [inProgress] using hidle)
  | @decode d ms h buffer ih =>
    have hnow := h.decode buffer
    rw [decode_eq] at hnow ⊢
    rcases hread : resumeFrom (d.lastSlot, ms, 0) d.stage buffer with ⟨s, ending, rest⟩
    rw [hread] at hnow
    cases ending with
    | done => exact of_idle hnow rfl
    | garbled e => exact of_idle hnow rfl
    | dry stage =>
      obtain ⟨lastSlot, start, used, hformed, hstart⟩ := ih
      obtain ⟨later, -, hlater, -⟩ := h.underway.resumable.dry hread
      refine ⟨lastSlot, start, used ++ later, hformed, fun more => ?_⟩
      rw [List.append_assoc, hstart, hlater]
      rfl

theorem Orderly.settled (h : Orderly set d ms) {buffer : List UInt8} {slot : Nat}
    (hresult : (d.decode ms buffer).result = .ok slot) :
    ∃ m, (d.decode ms buffer).messages[slot]? = some m ∧ m.Settled := by
  obtain ⟨lastSlot, start, used, hformed, hstart⟩ := h.exists_start
  rw [decode_eq] at hresult ⊢
  rcases hread : resumeFrom (d.lastSlot, ms, 0) d.stage buffer with ⟨s, ending, rest⟩
  rw [hread] at hresult
  cases ending with
  | dry stage => cases hresult
  | garbled e => cases hresult
  | done =>
    obtain rfl := Except.ok.inj hresult
    rw [← hstart] at hread
    obtain ⟨m, hm, map, m', bytes, hmessage, hslot⟩ := resumeFrom_idle_eq_done hread
    exact ⟨m', hslot, (hformed m hm).read_settles hmessage⟩

end Decoder

/-! ## What a layout finds -/

/-- The position is that of a field that was declared mandatory. -/
def Layout.MandatoryField (specs : List FieldSpec) (position : Option Nat) : Prop :=
  ∃ d, position.bind (specs[·]?) = some (.scalar d) ∧ d.isMandatory = true

/-- The position is that of a group whose length was declared mandatory. -/
def Layout.MandatoryGroup (specs : List FieldSpec) (position : Option Nat) : Prop :=
  ∃ d length row, position.bind (specs[·]?) = some (.group d length row) ∧
    length.decl.isMandatory = true

/-- What is read at the position is what a message leaves in a mandatory field. -/
def Layout.Shows (specs : List FieldSpec) (position : Option Nat) (e? : Option Entry) : Prop :=
  ∃ d e, position.bind (specs[·]?) = some (.scalar d) ∧ d.isMandatory = true ∧ e? = some e ∧
    d.Settles e

theorem Value.isSome_asUInt {v : Value} {kind : Kind} (h : v.hasKind kind = true)
    (hkind : Shape.number.admits kind = true) : v.asUInt.isSome = true := by
  obtain rfl := beq_iff_eq.1 hkind
  cases v with
  | uint v => rfl
  | _ => cases h

theorem Value.isSome_asBytes {v : Value} {kind : Kind} (h : v.hasKind kind = true)
    (hkind : Shape.text.admits kind = true) : v.asBytes.isSome = true := by
  cases v with
  | bytes bs => rfl
  | _ => cases kind <;> simp_all [Shape.admits, hasKind]

theorem Decl.Settles.of_mandatory {d : Decl} {e : Entry} (h : d.Settles e)
    (hmandatory : d.isMandatory = true) : e.state = .assigned ∧ e.value.hasKind d.kind = true := by
  rcases h with hassigned | ⟨hoptional, -⟩
  · exact hassigned
  · simp only [isMandatory, isOptional, beq_iff_eq] at hmandatory hoptional
    rw [hmandatory] at hoptional
    cases hoptional

namespace Layout

variable {specs : List FieldSpec} {position : Option Nat} {e? : Option Entry}

theorem Shows.number (h : Shows specs position e?) (hpoints : Points specs .number position) :
    (e? >>= Entry.asUInt).isSome = true := by
  obtain ⟨d, ⟨state, v⟩, hd, hmandatory, rfl, hsettles⟩ := h
  obtain ⟨rfl, hkind⟩ := hsettles.of_mandatory hmandatory
  exact Value.isSome_asUInt hkind (hpoints _ hd)

theorem Shows.text (h : Shows specs position e?) (hpoints : Points specs .text position) :
    (e? >>= Entry.asBytes).isSome = true := by
  obtain ⟨d, ⟨state, v⟩, hd, hmandatory, rfl, hsettles⟩ := h
  obtain ⟨rfl, hkind⟩ := hsettles.of_mandatory hmandatory
  exact Value.isSome_asBytes hkind (hpoints _ hd)

theorem MandatoryField.shows_item (h : MandatoryField specs position) {m : Message}
    (hm : List.Forall₂ Item.SettledBy specs m.items) :
    Shows specs position (MessageLayout.entryAt m position) := by
  obtain ⟨d, hd, hmandatory⟩ := h
  obtain ⟨i, rfl, hi⟩ := Option.bind_eq_some_iff.1 hd
  obtain ⟨item, hitem, hsettled⟩ := exists_of_forall₂ hm hi
  cases item with
  | group g => cases hsettled
  | scalar f =>
    refine ⟨d, f.current, hd, hmandatory, ?_, hsettled.2⟩
    rw [MessageLayout.entryAt, Option.bind_some, hitem]
    rfl

theorem MandatoryField.shows_cell (h : MandatoryField specs position) {row : Row}
    (hrow : List.Forall₂ Decl.Settles (specs.map FieldSpec.decl) row) :
    Shows specs position (RowLayout.entryAt row position) := by
  obtain ⟨d, hd, hmandatory⟩ := h
  obtain ⟨i, rfl, hi⟩ := Option.bind_eq_some_iff.1 hd
  rw [List.forall₂_map_left_iff] at hrow
  obtain ⟨e, he, hsettles⟩ := exists_of_forall₂ hrow hi
  exact ⟨d, e, hd, hmandatory, he, hsettles⟩

end Layout

open Layout (MandatoryField MandatoryGroup)

/-- In a row of these fields, every position of a mandatory field has a value. -/
structure RowLayout.Finds (l : RowLayout) (specs : List FieldSpec) (row : Row) : Prop where
  rptSeq : MandatoryField specs l.rptSeq → (l.rptSeqOf row).isSome = true
  securityId : MandatoryField specs l.securityId → (l.securityIdOf row).isSome = true
  symbol : MandatoryField specs l.symbol → (l.symbolOf row).isSome = true
  tradingSession : MandatoryField specs l.tradingSession → (l.tradingSessionOf row).isSome = true

theorem RowLayout.Suits.finds {l : RowLayout} {specs : List FieldSpec} {row : Row}
    (h : l.Suits specs) (hrow : List.Forall₂ Decl.Settles (specs.map FieldSpec.decl) row) :
    l.Finds specs row where
  rptSeq hp := (hp.shows_cell hrow).number h.rptSeq
  securityId hp := (hp.shows_cell hrow).number h.securityId
  symbol hp := (hp.shows_cell hrow).text h.symbol
  tradingSession hp := (hp.shows_cell hrow).text h.tradingSession

namespace MessageLayout

variable {l : MessageLayout} {t : Template} {m : Message}

/-- In a message of the template, every position of a mandatory field has a value. -/
structure Finds (l : MessageLayout) (t : Template) (m : Message) : Prop where
  seqNum : MandatoryField t.fields l.seqNum → (l.seqNumOf m).isSome = true
  lastProcessed : MandatoryField t.fields l.lastProcessed → (l.lastProcessedOf m).isSome = true
  rptSeq : MandatoryField t.fields l.rptSeq → (l.rptSeqOf m).isSome = true
  securityId : MandatoryField t.fields l.securityId → (l.securityIdOf m).isSome = true
  symbol : MandatoryField t.fields l.symbol → (l.symbolOf m).isSome = true
  tradingSession : MandatoryField t.fields l.tradingSession → (l.tradingSessionOf m).isSome = true
  entries : MandatoryField t.fields l.entries ∨ MandatoryGroup t.fields l.entries →
    (l.entriesOf m).isSome = true
  row : ∀ g, l.entriesOf m = some g → ∃ d length specs,
    l.entries.bind (t.fields[·]?) = some (.group d length specs) ∧
      ∀ row ∈ g.rows, l.row.Finds specs row

theorem entriesOf_eq_some {g : Group} (h : l.entriesOf m = some g) :
    ∃ i, l.entries = some i ∧ m.items[i]? = some (.group g) := by
  obtain ⟨hgroup, -⟩ := Option.filter_eq_some_iff.1 h
  obtain ⟨item, hitem, hg⟩ := Option.bind_eq_some_iff.1 hgroup
  obtain ⟨i, hi, hitem⟩ := Option.bind_eq_some_iff.1 hitem
  cases item with
  | scalar f => cases hg
  | group g' =>
    obtain rfl := Option.some.inj hg
    exact ⟨i, hi, hitem⟩

/-- A group that is mandatory is there, and a field that is declared as a group is not read. -/
theorem Suits.isSome_entriesOf (h : l.Suits t) (hm : m.SettledBy t)
    (hp : MandatoryField t.fields l.entries ∨ MandatoryGroup t.fields l.entries) :
    (l.entriesOf m).isSome = true := by
  rcases hp with ⟨d, hd, -⟩ | ⟨d, length, specs, hgroup, hmandatory⟩
  · have hkind := h.entries _ hd
    obtain ⟨i, -, hi⟩ := Option.bind_eq_some_iff.1 hd
    obtain ⟨item, -, hsettled⟩ := exists_of_forall₂ hm hi
    cases item with
    | group g => cases hsettled
    | scalar f => exact absurd (beq_iff_eq.1 hkind) hsettled.1
  · obtain ⟨i, hentries, hi⟩ := Option.bind_eq_some_iff.1 hgroup
    obtain ⟨item, hitem, hsettled⟩ := exists_of_forall₂ hm hi
    cases item with
    | scalar f => cases hsettled
    | group g =>
      have hassigned := (hsettled.1.of_mandatory hmandatory).1
      simp [entriesOf, hentries, hitem, Item.group?, Entry.isAssigned, hassigned]

theorem Suits.finds (h : l.Suits t) (hm : m.SettledBy t) : l.Finds t m where
  seqNum hp := (hp.shows_item hm).number h.seqNum
  lastProcessed hp := (hp.shows_item hm).number h.lastProcessed
  rptSeq hp := (hp.shows_item hm).number h.rptSeq
  securityId hp := (hp.shows_item hm).number h.securityId
  symbol hp := (hp.shows_item hm).text h.symbol
  tradingSession hp := (hp.shows_item hm).text h.tradingSession
  entries hp := h.isSome_entriesOf hm hp
  row g hg := by
    obtain ⟨i, hentries, hi⟩ := entriesOf_eq_some hg
    obtain ⟨s, hs, hsettled⟩ := exists_of_forall₂ hm.flip hi
    cases s with
    | scalar d => cases hsettled
    | group d length specs =>
      have hspec : l.entries.bind (t.fields[·]?) = some (.group d length specs) := by
        rw [hentries]
        exact hs
      exact ⟨d, length, specs, hspec, fun row hrow => (h.row _ _ _ hspec).finds (hsettled.2 row hrow)⟩

end MessageLayout

/-! ## The whole -/

namespace Decoder

variable {set : TemplateSet} {d : Decoder} {ms : Messages}

/--
Of a message that was delivered, every field, every length and every cell has a value of its kind,
or is empty if it is optional. So if the set has layouts, the one of the message finds a value at
each position of a mandatory field.
-/
theorem Orderly.decode_settles (h : Orderly set d ms) {buffer : List UInt8} {slot : Nat}
    (hresult : (d.decode ms buffer).result = .ok slot) :
    ∃ t m, set.templates[slot]? = some t ∧ (d.decode ms buffer).messages[slot]? = some m ∧
      m.SettledBy t ∧ ∀ layouts, Layouts.ofTemplates set = .ok layouts → t.resets = false →
        ∃ l, layouts.find? m.id = some l ∧ l.Finds t m := by
  obtain ⟨m, hm, hsettled⟩ := h.settled hresult
  obtain ⟨t, ht, hdeclared⟩ := exists_of_forall₂ (h.decode buffer).visited.keeps.declared.flip hm
  have hsettledBy := hdeclared.settledBy hsettled
  refine ⟨t, m, ht, hm, hsettledBy, fun layouts hlayouts hresets => ?_⟩
  obtain ⟨l, hfind, hsuits⟩ := Layouts.find?_of_mem hlayouts (List.mem_of_getElem? ht) hresets
  exact ⟨l, by rwa [hdeclared.id], hsuits.finds hsettledBy⟩

/-- A counter, and rows that repeat a number and may name a symbol. -/
def trades : TemplateSet where
  templates := [{ id := 1, name := "Trades", fields := [
    .scalar { name := "MsgSeqNum", id := 34, kind := .uint, op := .increment },
    .group { name := "MDEntries", id := 268, kind := .sequence }
      (.scalar { name := "NoMDEntries", id := 268, kind := .uint })
      [.scalar { name := "RptSeq", id := 83, kind := .uint, op := .copy },
        .scalar { name := "Symbol", id := 55, kind := .ascii, presence := .optional }]] }]
  accepted := rfl

/-- A message of two rows that was cut in the first one. -/
theorem Orderly.decode_settles_trades :
    let r := Decoder.fresh.decode trades.messages [224, 129, 135, 130, 192]
    let now := r.decoder.decode r.messages [131, 193, 128, 128]
    Orderly trades r.decoder r.messages ∧ r.decoder.inProgress = true ∧ now.result = .ok 0 ∧
      ∃ t m layouts l, now.messages[0]? = some m ∧ m.SettledBy t ∧
        Layouts.ofTemplates trades = .ok layouts ∧ layouts.find? m.id = some l ∧
        l.Finds t m ∧ Layout.MandatoryField t.fields l.seqNum ∧ (l.seqNumOf m).isSome = true ∧
        Layout.MandatoryGroup t.fields l.entries ∧ (l.entriesOf m).isSome = true := by
  intro r now
  have h : Orderly trades r.decoder r.messages := .decode .fresh _
  have hresult : now.result = .ok 0 := by decide
  have hlayouts : Layouts.ofTemplates trades = .ok _ := rfl
  obtain ⟨t, m, ht, hm, hsettled, hfinds⟩ := h.decode_settles hresult
  obtain rfl := Option.some.inj ht
  obtain ⟨l, hfind, hl⟩ := hfinds _ hlayouts rfl
  obtain rfl := List.mem_singleton.1 (List.mem_of_find?_eq_some hfind)
  have hfield : Layout.MandatoryField trades.templates[0].fields (some 0) := ⟨_, rfl, rfl⟩
  have hgroup : Layout.MandatoryGroup trades.templates[0].fields (some 1) := ⟨_, _, _, rfl, rfl⟩
  exact ⟨h, by decide, hresult, _, m, _, _, hm, hsettled, hlayouts, hfind, hl, hfield,
    hl.seqNum hfield, hgroup, hl.entries (.inr hgroup)⟩

end Decoder

end MarketFeed
