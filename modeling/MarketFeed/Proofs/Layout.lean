import MarketFeed.Layout
import MarketFeed.Proofs.Template

/-!
# What the positions of a layout are

A layout that is resolved points to fields of the kinds that its readers expect, or to nothing:
`MessageLayout.suits_of_resolve`. In an accepted set, each template that does not end the history is
found under its own id: `Layouts.find?_of_mem`.
-/

namespace MarketFeed

/-- A field at the position, if there is one, is of a kind that the shape admits. -/
def Layout.Points (specs : List FieldSpec) (shape : Shape) (position : Option Nat) : Prop :=
  ∀ s, position.bind (specs[·]?) = some s → shape.admits s.decl.kind = true

open Layout (Points)

variable {template : UInt32} {specs : List FieldSpec} {name : String} {shape : Shape}
  {position : Option Nat}

theorem Layout.points_none : Points specs shape none := nofun

theorem Layout.points_of_locate (h : locate template specs name shape = .ok position) :
    Points specs shape position := by
  unfold locate at h
  split at h
  · obtain rfl := Except.ok.inj h
    exact points_none
  · next i _ =>
    split at h
    · obtain rfl := Except.ok.inj h
      exact points_none
    · next s hs =>
      split at h
      · next hadmits =>
        obtain rfl := Except.ok.inj h
        intro s' hs'
        rw [Option.bind_some, hs] at hs'
        rwa [← Option.some.inj hs']
      · cases h

open Layout (points_none points_of_locate)

/-- Every position is that of a field of the right shape. -/
structure RowLayout.Suits (l : RowLayout) (row : List FieldSpec) : Prop where
  entryType : Points row .text l.entryType
  price : Points row .price l.price
  size : Points row .size l.size
  action : Points row .number l.action
  rptSeq : Points row .number l.rptSeq
  securityId : Points row .number l.securityId
  symbol : Points row .text l.symbol
  tradingSession : Points row .text l.tradingSession
  priceLevel : Points row .number l.priceLevel

theorem RowLayout.suits_of_resolve {row : List FieldSpec} {l : RowLayout}
    (h : resolve template row = .ok l) : l.Suits row := by
  unfold resolve at h
  obtain ⟨entryType, hentryType, h⟩ := Except.bind_eq_ok h
  obtain ⟨price, hprice, h⟩ := Except.bind_eq_ok h
  obtain ⟨size, hsize, h⟩ := Except.bind_eq_ok h
  obtain ⟨action, haction, h⟩ := Except.bind_eq_ok h
  obtain ⟨rptSeq, hrptSeq, h⟩ := Except.bind_eq_ok h
  obtain ⟨securityId, hsecurityId, h⟩ := Except.bind_eq_ok h
  obtain ⟨symbol, hsymbol, h⟩ := Except.bind_eq_ok h
  obtain ⟨tradingSession, htradingSession, h⟩ := Except.bind_eq_ok h
  obtain ⟨priceLevel, hpriceLevel, h⟩ := Except.bind_eq_ok h
  obtain rfl := Except.ok.inj h
  exact {
    entryType := points_of_locate hentryType
    price := points_of_locate hprice
    size := points_of_locate hsize
    action := points_of_locate haction
    rptSeq := points_of_locate hrptSeq
    securityId := points_of_locate hsecurityId
    symbol := points_of_locate hsymbol
    tradingSession := points_of_locate htradingSession
    priceLevel := points_of_locate hpriceLevel }

namespace MessageLayout

variable {t : Template} {l : MessageLayout}

/-- Every position is that of a field of the right shape, and the row's are those of the group. -/
structure Suits (l : MessageLayout) (t : Template) : Prop where
  templateId : l.templateId = t.id
  messageType : Points t.fields .text l.messageType
  seqNum : Points t.fields .number l.seqNum
  lastProcessed : Points t.fields .number l.lastProcessed
  rptSeq : Points t.fields .number l.rptSeq
  securityId : Points t.fields .number l.securityId
  symbol : Points t.fields .text l.symbol
  tradingSession : Points t.fields .text l.tradingSession
  entries : Points t.fields .group l.entries
  row : ∀ d length row, l.entries.bind (t.fields[·]?) = some (.group d length row) →
    l.row.Suits row

theorem points_of_locateEntries (h : locateEntries t = .ok position) :
    Points t.fields .group position := by
  obtain ⟨first, hfirst, h⟩ := Except.bind_eq_ok h
  cases first with
  | none => exact points_of_locate h
  | some i =>
    obtain rfl := Except.ok.inj h
    exact points_of_locate hfirst

theorem suits_of_resolveRow {row : RowLayout} (h : resolveRow t position = .ok row)
    (d : Decl) (length : FieldSpec) (specs : List FieldSpec)
    (hgroup : position.bind (t.fields[·]?) = some (.group d length specs)) : row.Suits specs := by
  unfold resolveRow at h
  rw [hgroup] at h
  exact RowLayout.suits_of_resolve h

theorem suits_of_resolve (h : resolve t = .ok l) : l.Suits t := by
  unfold resolve at h
  obtain ⟨messageType, hmessageType, h⟩ := Except.bind_eq_ok h
  obtain ⟨entries, hentries, h⟩ := Except.bind_eq_ok h
  obtain ⟨row, hrow, h⟩ := Except.bind_eq_ok h
  obtain ⟨seqNum, hseqNum, h⟩ := Except.bind_eq_ok h
  obtain ⟨lastProcessed, hlastProcessed, h⟩ := Except.bind_eq_ok h
  obtain ⟨rptSeq, hrptSeq, h⟩ := Except.bind_eq_ok h
  obtain ⟨securityId, hsecurityId, h⟩ := Except.bind_eq_ok h
  obtain ⟨symbol, hsymbol, h⟩ := Except.bind_eq_ok h
  obtain ⟨tradingSession, htradingSession, h⟩ := Except.bind_eq_ok h
  have suits (fixedType : Option MessageType) : Suits {
      templateId := t.id
      fixedType, messageType, seqNum, lastProcessed, rptSeq, securityId, symbol, tradingSession
      entries, row } t := {
    templateId := rfl
    messageType := points_of_locate hmessageType
    seqNum := points_of_locate hseqNum
    lastProcessed := points_of_locate hlastProcessed
    rptSeq := points_of_locate hrptSeq
    securityId := points_of_locate hsecurityId
    symbol := points_of_locate hsymbol
    tradingSession := points_of_locate htradingSession
    entries := points_of_locateEntries hentries
    row := suits_of_resolveRow hrow }
  dsimp only at h
  split at h
  · obtain ⟨⟨⟩, -, h⟩ := Except.bind_eq_ok h
    obtain rfl := Except.ok.inj h
    exact suits _
  · obtain ⟨⟨⟩, -, h⟩ := Except.bind_eq_ok h
    obtain rfl := Except.ok.inj h
    exact suits _
  · obtain rfl := Except.ok.inj h
    exact suits _

end MessageLayout

/-! ## Layouts of a set -/

namespace Layouts

theorem find?_of_mapM {ts : List Template} {ls : Layouts}
    (h : ts.mapM MessageLayout.resolve = .ok ls) (hnodup : (ts.map Template.id).Nodup)
    {t : Template} (ht : t ∈ ts) :
    ∃ l, ls.find? t.id = some l ∧ MessageLayout.resolve t = .ok l := by
  induction ts generalizing ls with
  | nil => cases ht
  | cons first ts ih =>
    rw [List.mapM_cons] at h
    obtain ⟨l, hl, h⟩ := Except.bind_eq_ok h
    obtain ⟨ls, hls, h⟩ := Except.bind_eq_ok h
    obtain rfl := Except.ok.inj h
    have hid := (MessageLayout.suits_of_resolve hl).templateId
    rw [List.map_cons, List.nodup_cons] at hnodup
    rcases List.mem_cons.1 ht with rfl | ht
    · exact ⟨l, by simp [find?, hid], hl⟩
    · have hne : l.templateId ≠ t.id := by
        rintro heq
        exact hnodup.1 (List.mem_map.2 ⟨t, ht, by rw [← heq, hid]⟩)
      obtain ⟨l', hfind, hresolve⟩ := ih hls hnodup.2 ht
      exact ⟨l', by simpa [find?, hne] using hfind, hresolve⟩

/-- Messages of a template that does not end the history find the layout of their template. -/
theorem find?_of_mem {set : TemplateSet} {ls : Layouts} (h : ofTemplates set = .ok ls)
    {t : Template} (ht : t ∈ set.templates) (hresets : t.resets = false) :
    ∃ l, ls.find? t.id = some l ∧ l.Suits t := by
  have hnodup : ((set.templates.filter (!·.resets)).map Template.id).Nodup :=
    (TemplateSet.checkFrom_eq_ok set.checkFrom_templates).2.sublist (List.filter_sublist.map _)
  obtain ⟨l, hfind, hresolve⟩ :=
    find?_of_mapM h hnodup (List.mem_filter.2 ⟨ht, by simp [hresets]⟩)
  exact ⟨l, hfind, MessageLayout.suits_of_resolve hresolve⟩

end Layouts

end MarketFeed
