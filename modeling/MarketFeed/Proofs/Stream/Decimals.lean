import MarketFeed.Proofs.Stream.Invariant
import MarketFeed.Proofs.Stream.RoundTrip

/-!
# Decimals that arrive

An exponent is checked when a decimal is read, and again when a delta leads to one, but not when a
decimal is inferred from the declaration. So a decimal in a slot has an exponent from -63 to 63, or
is the one that a copied or constant field was declared with: `Decoder.decimals_in_range`.
-/

namespace MarketFeed

/-! ## Values -/

/-- If it is a decimal, it has an exponent that messages may carry. -/
def Value.InRange (v : Value) : Prop := ∀ x, v = .decimal x → x.hasValidExponent = true

theorem Value.inRange_of_successor {v w : Value} (h : v.successor = some w) : w.InRange := by
  rintro x rfl
  cases v <;> simp [successor] at h

theorem inRange_of_checkedDecimal {mantissa exponent : Int64} {v : Value}
    (h : checkedDecimal mantissa exponent = .ok v) : v.InRange := by
  unfold checkedDecimal at h
  dsimp only at h
  split at h
  · next hvalid =>
    obtain rfl := Except.ok.inj h
    rintro x hx
    rwa [← Value.decimal.inj hx]
  · cases h

/-- The value, if there is one, is in range. -/
def AllInRange (v? : Option Value) : Prop := ∀ v, v? = some v → v.InRange

theorem allInRange_none : AllInRange none := nofun

theorem allInRange_some {v : Value} (h : v.InRange) : AllInRange (some v) :=
  fun _ hv => Option.some.inj hv ▸ h

theorem allInRange_map {α : Type} {f : α → Value} (hf : ∀ a x, f a ≠ .decimal x) (a? : Option α) :
    AllInRange (a?.map f) := by
  rintro v hv x rfl
  obtain ⟨a, -, ha⟩ := Option.map_eq_some_iff.1 hv
  exact absurd ha (hf a x)

theorem Decl.readValue_yields (d : Decl) : d.readValue.Yields AllInRange := by
  have plain {α : Type} {read : Read (Option α)} {f : α → Value} (hf : ∀ a x, f a ≠ .decimal x) :
      (read >>= fun a? => pure (a?.map f)).Yields AllInRange :=
    .bind (.trivial read) fun a? _ => .pure (allInRange_map hf a?)
  unfold readValue
  cases d.kind with
  | int => exact plain (f := .int) nofun
  | uint => exact plain (f := .uint) nofun
  | unicode => exact plain (f := .bytes) nofun
  | bytes => exact plain (f := .bytes) nofun
  | ascii =>
    refine .bind (.trivial _) fun run _ => .pure ?_
    exact allInRange_map (f := .bytes) nofun (textOfRun _ run)
  | sequence => exact .fail _
  | decimal =>
    refine .bind (.trivial _) fun pair _ => ?_
    cases pair with
    | none => exact .pure allInRange_none
    | some pair =>
      exact .bind (.ofExcept fun v hv => inRange_of_checkedDecimal hv)
        fun v hv => .pure (allInRange_some hv)

/-! ## Fields -/

namespace Field

variable {f f' : Field} {v? : Option Value}

theorem inRange_of_addDelta {delta : Int64} {v : Value} (h : f.addDelta delta = .ok v) :
    v.InRange := by
  rcases addDelta_eq_ok h with ⟨-, w, -, rfl, -⟩ | ⟨-, w, -, rfl, -⟩ <;> exact nofun

theorem inRange_of_addDecimalDelta {exponent mantissa : Int64} {v : Value}
    (h : f.addDecimalDelta exponent mantissa = .ok v) : v.InRange := by
  rcases addDecimalDelta_cases h with hv | ⟨mantissa, exponent, hv⟩
  · cases hv
  · exact inRange_of_checkedDecimal hv

theorem readDelta_yields (f : Field) : f.readDelta.Yields AllInRange := by
  unfold readDelta
  split
  case h_1 | h_2 =>
    refine .bind (.trivial _) fun delta? _ => ?_
    cases delta? with
    | none => exact .pure allInRange_none
    | some delta =>
      exact .bind (.ofExcept fun v hv => inRange_of_addDelta hv)
        fun v hv => .pure (allInRange_some hv)
  case h_3 =>
    refine .bind (.trivial _) fun pair _ => ?_
    cases pair with
    | none => exact .pure allInRange_none
    | some pair =>
      exact .bind (.ofExcept fun v hv => inRange_of_addDecimalDelta hv)
        fun v hv => .pure (allInRange_some hv)
  case h_4 => exact .fail _

end Field

/-- The value is in range, or can be inferred from the declaration as it stands there. -/
def Decl.Covers (d : Decl) (v : Value) : Prop :=
  v.InRange ∨ d.init = some v ∧ d.op ≠ .none ∧ d.op ≠ .delta

/-- The declaration covers what the field holds and what it remembers. -/
structure Field.Ranged (f : Field) : Prop where
  current : ∀ v, f.current.value? = some v → f.decl.Covers v
  previous : ∀ v, f.previous.value? = some v → f.decl.Covers v

namespace Field

variable {f f' : Field} {v? : Option Value}

theorem Ranged.receive (h : f.Ranged) (hv : AllInRange v?) : (f.receive v?).Ranged := by
  cases v? with
  | some v => exact ⟨fun w hw => .inl (hv w hw), h.previous⟩
  | none => exact ⟨nofun, h.previous⟩

theorem Ranged.receiveDelta (h : f.Ranged) (hv : AllInRange v?) : (f.receiveDelta v?).Ranged := by
  cases v? with
  | some v => exact ⟨fun w hw => .inl (hv w hw), fun w hw => .inl (hv w hw)⟩
  | none => exact ⟨nofun, h.previous⟩

theorem ranged_receiveKept (f : Field) (hv : ∀ v, v? = some v → f.decl.Covers v) :
    (f.receiveKept v?).Ranged := by
  cases v? with
  | some v => exact ⟨hv, hv⟩
  | none => exact ⟨nofun, nofun⟩

/-- What is inferred was remembered, follows on what was, or was declared. -/
theorem Ranged.inherit (h : f.Ranged) (hop : f.decl.op = .copy ∨ f.decl.op = .increment)
    (hf : f.inherit = .ok f') : f'.Ranged := by
  rcases inherit_eq_ok hf with ⟨v, rfl, hcase⟩ | ⟨rfl, -, -⟩
  · refine ranged_receiveKept f fun w hw => ?_
    obtain rfl := Option.some.inj hw
    rcases hcase with ⟨hs, hvalue⟩ | ⟨-, hinit⟩
    · split at hvalue
      · exact .inl (Value.inRange_of_successor hvalue)
      · refine h.previous v ?_
        rw [Entry.value?_of_isAssigned (by rw [Entry.isAssigned, hs]; rfl), hvalue]
    · exact .inr ⟨hinit, by rcases hop with hop | hop <;> simp [hop]⟩
  · exact ranged_receiveKept f (by simp)

theorem Ranged.takeConstant (h : f.Ranged) (hop : f.decl.op = .constant) {map : PresenceMap}
    (hf : f.takeConstant map = .ok f') : f'.Ranged := by
  rcases takeConstant_eq_ok hf with ⟨-, -, rfl⟩ | ⟨v, hv, -, rfl⟩
  · exact ⟨nofun, h.previous⟩
  · refine ⟨fun w hw => .inr ⟨?_, by simp [put, hop], by simp [put, hop]⟩, h.previous⟩
    exact hv.trans hw

theorem ranged_invariant : Invariant Ranged where
  fresh d bit := ⟨nofun, nofun⟩
  read {f} h map := by
    have kept (hop : f.decl.op = .copy ∨ f.decl.op = .increment) :
        (if f.isMarked map then do return f.receiveKept (← f.decl.readValue)
          else Read.ofExcept f.inherit : Read Field).Yields Ranged :=
      .ite (fun _ => .bind f.decl.readValue_yields fun v? hv =>
        .pure (ranged_receiveKept f fun v hsome => .inl (hv v hsome)))
        fun _ => .ofExcept fun _ => h.inherit hop
    unfold Field.read
    refine .ite (fun _ => ?_) fun _ => .fail _
    cases hop : f.decl.op with
    | none => exact .bind f.decl.readValue_yields fun v? hv => .pure (h.receive hv)
    | copy => exact kept (.inl hop)
    | increment => exact kept (.inr hop)
    | delta => exact .bind f.readDelta_yields fun v? hv => .pure (h.receiveDelta hv)
    | constant => exact .ofExcept fun _ => h.takeConstant hop

end Field

/-! ## Slots -/

namespace Decl

/-- The decimal has an exponent that messages may carry, or is declared and inferred as it is. -/
def Allows (d : Decl) (x : Decimal) : Prop :=
  (-63 ≤ x.exponent.toInt ∧ x.exponent.toInt ≤ 63) ∨
    d.init = some (.decimal x) ∧ (d.op = .copy ∨ d.op = .constant)

theorem Covers.allows {d : Decl} (hd : d.Valid) {x : Decimal} (h : d.Covers (.decimal x)) :
    d.Allows x := by
  rcases h with hrange | ⟨hinit, hnone, hdelta⟩
  · have hvalid := hrange x rfl
    rw [Decimal.hasValidExponent, Bool.and_eq_true, decide_eq_true_iff, decide_eq_true_iff,
      Int64.le_iff_toInt_le, Int64.le_iff_toInt_le] at hvalid
    exact .inl hvalid
  · have hkind : d.kind = .decimal := by
      have hvalue := hd.init _ hinit
      cases hkind : d.kind <;> simp [hkind, Value.hasKind] at hvalue
      rfl
    have hallowed := hd.operator
    rw [hkind] at hallowed
    cases hop : d.op with
    | none => exact absurd hop hnone
    | delta => exact absurd hop hdelta
    | increment => simp [hop, Operator.allowedOn] at hallowed
    | copy => exact .inr ⟨hinit, .inl hop⟩
    | constant => exact .inr ⟨hinit, .inr hop⟩

end Decl

namespace Decoder

/--
Whatever was decoded into the slots of a set, a decimal that is assigned to a field or to the cell
of a row has an exponent from -63 to 63, unless it was declared with another for a copied or
constant field. Read or counted up, no decimal is ever out of range.
-/
theorem decimals_in_range (set : TemplateSet) {d : Decoder} {ms : Messages}
    (h : Visited set d ms) {m : Message} (hm : m ∈ ms) :
    (∀ f x, Item.scalar f ∈ m.items → f.current = .assigned (.decimal x) → f.decl.Allows x) ∧
    ∀ g, Item.group g ∈ m.items → ∀ row ∈ g.rows ++ g.spare, ∀ (j : Nat) (f : Field) (x : Decimal),
      g.dictionary[j]? = some f → row[j]? = some (.assigned (.decimal x)) → f.decl.Allows x := by
  have hthroughout := h.throughout Field.ranged_invariant m hm
  have hformed := h.formed m hm
  refine ⟨fun f x hf hcurrent => ?_, fun g hg row hrow j f x hf hcell => ?_⟩
  · have hranged : f.Ranged := hthroughout _ hf
    have hfield : f.Formed := hformed _ hf
    by_cases hrowless : f.IsRowless
    · rw [← hfield.untouched hrowless] at hcurrent
      cases hcurrent
    · exact (hranged.current _ (by rw [hcurrent]; rfl)).allows (hfield.kinded hrowless).valid
  · have hgroup : g.Throughout Field.Ranged := hthroughout _ hg
    have hfield : f.Kinded := (hformed _ hg : g.Formed).dictionary f (List.mem_of_getElem? hf)
    have hd : g.decls[j]? = some f.decl := by rw [Group.decls, List.getElem?_map, hf]; rfl
    obtain ⟨e, he, f', hranged, hdecl, rfl⟩ := exists_of_forall₂ (hgroup.table.rows row hrow) hd
    have hcurrent : f'.current = .assigned (.decimal x) := Option.some.inj (he.symm.trans hcell)
    have hcovers := hranged.current (.decimal x) (by rw [hcurrent]; rfl)
    rw [hdecl] at hcovers
    exact hcovers.allows hfield.valid

/-- A price that is counted, beside a factor that is declared with the exponent 64. -/
def prices : TemplateSet where
  templates := [{ id := 1, name := "Price", fields := [
    .scalar { name := "Factor", id := 1, kind := .decimal, op := .constant,
              init := some (.decimal ⟨1, 64⟩) },
    .scalar { name := "Px", id := 270, kind := .decimal, op := .delta }] }]
  accepted := rfl

theorem decimals_in_range_prices :
    let r := Decoder.fresh.decode prices.messages [192, 129, 130, 133]
    ∃ m ∈ r.messages, ∃ f, Item.scalar f ∈ m.items ∧ f.current = .assigned (.decimal ⟨5, 2⟩) ∧
      f.decl.Allows ⟨5, 2⟩ := by
  intro r
  have hvisited : Visited prices _ r.messages := .decode .fresh _
  have hm : r.messages[0] ∈ r.messages := List.getElem_mem (by decide)
  exact ⟨_, hm, _, .tail _ (.head _), rfl,
    (decimals_in_range prices hvisited hm).1 _ _ (.tail _ (.head _)) rfl⟩

/-- No byte of the message says so, but its factor has an exponent that none may carry. -/
theorem declared_out_of_range :
    let r := Decoder.fresh.decode prices.messages [192, 129, 130, 133]
    r.result = .ok 0 ∧ ∃ m, r.messages[0]? = some m ∧
      ∃ f, Item.scalar f ∈ m.items ∧ f.current = .assigned (.decimal ⟨1, 64⟩) :=
  ⟨by decide, _, rfl, _, .head _, rfl⟩

end Decoder

end MarketFeed
