import MarketFeed.Proofs.Field.Value
import MarketFeed.Proofs.PresenceMap

/-!
# A field on both sides

Sender and receiver hold the same field if they declare and remember the same. Whatever the operator
makes of an entry, the receiver then ends with what was sent, and both remember the same again.
-/

namespace MarketFeed

namespace Entry

/-- The entry is assigned this value, or empty if there is none. -/
def Holds (e : Entry) : Option Value → Prop
  | some v => e = .assigned v
  | none => e.state = .empty

theorem value?_of_isAssigned {e : Entry} (h : e.isAssigned = true) : e.value? = some e.value := by
  rw [value?, h]
  rfl

theorem value?_of_not_isAssigned {e : Entry} (h : e.isAssigned = false) : e.value? = none := by
  rw [value?, h]
  rfl

theorem eq_assigned {e : Entry} (h : e.isAssigned = true) : e = .assigned e.value := by
  obtain ⟨state, value⟩ := e
  obtain rfl : state = .assigned := by simpa [isAssigned] using h
  rfl

end Entry

namespace Decl

/--
The value that a receiver is to have of an entry. Only an optional constant can be left out, and no
constant has a value other than its own.
-/
def delivered (d : Decl) (e : Entry) : Option Value :=
  if d.op = .constant then if d.isOptional && !e.isAssigned then none else d.init else e.value?

/-- The receiver's entry is what the sender's stands for. -/
def Conveys (d : Decl) (sent received : Entry) : Prop := received.Holds (d.delivered sent)

theorem conveys_iff {d : Decl} (h : d.op ≠ .constant) {sent received : Entry} :
    d.Conveys sent received ↔ received.Holds sent.value? := by
  rw [Conveys, delivered, if_neg h]

/-- A constant that can be sent has a value. -/
def HasConstant (d : Decl) : Prop := d.kind ≠ .sequence → d.op = .constant → d.init.isSome

end Decl

namespace Field

/-- The receiver's field `r` declares and remembers what the sender's does. -/
structure Agrees (f r : Field) : Prop where
  decl : r.decl = f.decl
  bit : r.bit = f.bit
  previous : r.previous = f.previous

variable {f r : Field}

theorem Agrees.refl (f : Field) : f.Agrees f := ⟨rfl, rfl, rfl⟩

/-- What is put into a field is no part of what it remembers. -/
theorem Agrees.put (h : f.Agrees r) (e : Entry) : (f.put e).Agrees r := ⟨h.decl, h.bit, h.previous⟩

/-! ## Each operator -/

theorem holds_receive (r : Field) (v? : Option Value) : (r.receive v?).current.Holds v? := by
  cases v? <;> rfl

theorem holds_receiveKept (r : Field) (v? : Option Value) :
    (r.receiveKept v?).current.Holds v? := by
  cases v? <;> rfl

theorem holds_receiveDelta (r : Field) (v? : Option Value) :
    (r.receiveDelta v?).current.Holds v? := by
  cases v? <;> rfl

theorem Agrees.receive (h : f.Agrees r) (hop : f.decl.op = .none) (v? : Option Value) :
    f.remembering.Agrees (r.receive v?) := by
  obtain ⟨hd, hb, hp⟩ := h
  rw [remembering, hop]
  cases v? <;> exact ⟨hd, hb, hp⟩

theorem remembering_of_kept (hop : f.decl.op = .copy ∨ f.decl.op = .increment) :
    f.remembering = if f.current.isAssigned then { f with previous := f.current }
      else { f with previous := f.previous.emptied } := by
  rcases hop with hop | hop <;> simp only [remembering, hop]

theorem marks_of_kept (hop : f.decl.op = .copy ∨ f.decl.op = .increment) :
    f.marks = !f.isImplied := by
  rcases hop with hop | hop <;> simp only [marks, hop]

theorem payload_of_kept (hop : f.decl.op = .copy ∨ f.decl.op = .increment) :
    f.payload = if f.marks then f.decl.writeValue f.current else .ok [] := by
  rcases hop with hop | hop <;> simp only [payload, hop]

theorem Agrees.receiveKept (h : f.Agrees r) (hop : f.decl.op = .copy ∨ f.decl.op = .increment) :
    f.remembering.Agrees (r.receiveKept f.current.value?) := by
  obtain ⟨hd, hb, hp⟩ := h
  rw [remembering_of_kept hop]
  cases ha : f.current.isAssigned with
  | true =>
    rw [Entry.value?_of_isAssigned ha]
    exact ⟨hd, hb, (Entry.eq_assigned ha).symm⟩
  | false =>
    rw [Entry.value?_of_not_isAssigned ha]
    exact ⟨hd, hb, congrArg Entry.emptied hp⟩

/-- A field that is left out because it is implied is inherited as it would have been received. -/
theorem Agrees.inherit (h : f.Agrees r) (himplied : f.isImplied = true)
    (hm : f.current.isAssigned = false → f.decl.isOptional = true) :
    r.inherit = .ok (r.receiveKept f.current.value?) := by
  obtain ⟨decl, bit, current, previous⟩ := r
  obtain rfl : decl = f.decl := h.decl
  obtain rfl : previous = f.previous := h.previous
  unfold isImplied at himplied
  unfold Field.inherit
  cases hs : f.previous.state with
  | assigned =>
    simp only [hs, Bool.and_eq_true] at himplied
    obtain ⟨ha, hv⟩ := himplied
    rw [Entry.value?_of_isAssigned ha]
    by_cases hinc : f.decl.op = .increment
    · rw [if_pos hinc, beq_iff_eq] at hv
      rw [if_pos hinc, hv]
      rfl
    · rw [if_neg hinc, beq_iff_eq] at hv
      rw [if_neg hinc, hv]
      rfl
  | empty =>
    simp only [hs, Bool.not_eq_true'] at himplied
    have hmandatory : f.decl.isMandatory = false := by
      have := hm himplied
      simp only [Decl.isOptional, beq_iff_eq] at this
      simp [Decl.isMandatory, this]
    rw [Entry.value?_of_not_isAssigned himplied]
    have hprevious : f.previous.emptied = f.previous := by rw [Entry.emptied, ← hs]
    simp only [hmandatory, Bool.false_eq_true, if_false]
    rw [Field.receiveKept, hprevious]
    rfl
  | undefined =>
    simp only [hs] at himplied
    cases hi : f.decl.init with
    | some v =>
      simp only [hi, Bool.and_eq_true, beq_iff_eq] at himplied
      rw [Entry.value?_of_isAssigned himplied.1, ← himplied.2]
      rfl
    | none =>
      simp only [hi, Bool.and_eq_true, Bool.not_eq_true'] at himplied
      obtain ⟨ha, ho⟩ := himplied
      rw [Entry.value?_of_not_isAssigned ha]
      simp only [ho, if_true]
      rfl

theorem Agrees.receiveDelta (h : f.Agrees r) (hop : f.decl.op = .delta) :
    f.remembering.Agrees (r.receiveDelta f.current.value?) := by
  obtain ⟨hd, hb, hp⟩ := h
  simp only [remembering, hop]
  cases ha : f.current.isAssigned with
  | true =>
    rw [Entry.value?_of_isAssigned ha]
    exact ⟨hd, hb, (Entry.eq_assigned ha).symm⟩
  | false =>
    rw [Entry.value?_of_not_isAssigned ha]
    exact ⟨hd, hb, hp⟩

theorem Agrees.takeConstant (h : f.Agrees r) (hop : f.decl.op = .constant)
    (hc : f.decl.init.isSome) {sent : PresenceMap} (hsent : r.isMarked sent = f.marks) :
    ∃ r', r.takeConstant sent = .ok r' ∧ f.remembering.Agrees r' ∧
      f.decl.Conveys f.current r'.current := by
  obtain ⟨hd, hb, hp⟩ := h
  simp only [remembering, hop, Field.takeConstant, hsent, hd, marks, Decl.Conveys, Decl.delivered,
    if_true]
  obtain ⟨v, hv⟩ := Option.isSome_iff_exists.1 hc
  cases ho : f.decl.isOptional with
  | false => simpa [hv] using ⟨⟨hd, hb, hp⟩, rfl⟩
  | true =>
    cases ha : f.current.isAssigned with
    | false => simpa using ⟨⟨hd, hb, hp⟩, rfl⟩
    | true => simpa [hv] using ⟨⟨hd, hb, hp⟩, rfl⟩

/-! ## Deltas -/

theorem addDelta_int {base v delta : Int64} (hp : r.previous.value = .int base)
    (h : toInt64? (v.toInt - base.toInt) = some delta) : r.addDelta delta = .ok (.int v) := by
  have hdelta := toInt64?_eq_some_iff.1 h
  have hsum : toInt64? (base.toInt + delta.toInt) = some v := by
    rw [toInt64?_eq_some_iff]
    omega
  simp [addDelta, hp, hsum]

theorem addDelta_uint {base v : UInt64} {delta : Int64} (hp : r.previous.value = .uint base)
    (h : toInt64? ((v.toNat : Int) - base.toNat) = some delta) :
    r.addDelta delta = .ok (.uint v) := by
  have hdelta := toInt64?_eq_some_iff.1 h
  have hsum : toUInt64? (base.toNat + delta.toInt) = some v := by
    rw [toUInt64?_eq_some_iff]
    omega
  simp [addDelta, hp, hsum]

theorem addDecimalDelta_eq {base v : Decimal} {exponent mantissa : Int64}
    (hp : r.previous.value = .decimal base) (hv : v.hasValidExponent = true)
    (he : toInt64? (v.exponent.toInt - base.exponent.toInt) = some exponent)
    (hm : toInt64? (v.mantissa.toInt - base.mantissa.toInt) = some mantissa) :
    r.addDecimalDelta exponent mantissa = .ok (.decimal v) := by
  have hexponent := toInt64?_eq_some_iff.1 he
  have hmantissa := toInt64?_eq_some_iff.1 hm
  have he' : toInt64? (base.exponent.toInt + exponent.toInt) = some v.exponent := by
    rw [toInt64?_eq_some_iff]
    omega
  have hm' : toInt64? (base.mantissa.toInt + mantissa.toInt) = some v.mantissa := by
    rw [toInt64?_eq_some_iff]
    omega
  simp [addDecimalDelta, hp, Value.asDecimal, he', hm', checkedDecimal, hv]

/-- The receiver adds to what both remember the difference that the sender has sent. -/
theorem Agrees.readDelta_takes (h : f.Agrees r) {bytes : List UInt8}
    (hw : f.writeDelta = .ok bytes) (hallowed : f.decl.op.allowedOn f.decl.kind = true)
    (hop : f.decl.op = .delta)
    (hk : f.current.isAssigned = true → f.current.value.hasKind f.decl.kind = true)
    (ho : f.current.isAssigned = false → f.decl.isOptional = true) :
    r.readDelta.Takes bytes f.current.value? := by
  obtain ⟨hd, hb, hp⟩ := h
  have hprevious : r.previous.value = f.previous.value := by rw [hp]
  unfold writeDelta at hw
  unfold readDelta
  rw [hd]
  rw [hop] at hallowed
  cases ha : f.current.isAssigned with
  | false =>
    simp only [ha, Bool.not_false, if_true] at hw
    obtain rfl := Except.ok.inj hw
    rw [Entry.value?_of_not_isAssigned ha, ho ha]
    cases hkind : f.decl.kind <;> simp [hkind, Operator.allowedOn] at hallowed
    · exact Decl.nullableInt_null.bind_nil (.pure none)
    · exact Decl.nullableInt_null.bind_nil (.pure none)
    · exact Decl.nullablePair_null.bind_nil (.pure none)
  | true =>
    have hk := hk ha
    simp only [ha, Bool.not_true, Bool.false_eq_true, if_false] at hw
    rw [Entry.value?_of_isAssigned ha]
    split at hw
    · next v base hv hbase =>
      obtain ⟨delta, hdelta, hw⟩ := Except.bind_eq_ok hw
      obtain ⟨s, hs, hw⟩ := Except.bind_eq_ok hw
      obtain rfl := Except.ok.inj hw
      rw [hv] at hk ⊢
      cases hkind : f.decl.kind <;> simp [hkind, Value.hasKind] at hk
      refine (Decl.shiftInt_takes hs).bind_nil ?_
      dsimp only
      rw [addDelta_int (hprevious.trans hbase) (Decl.sendable_eq_ok hdelta)]
      exact .pure _
    · next v base hv hbase =>
      obtain ⟨delta, hdelta, hw⟩ := Except.bind_eq_ok hw
      obtain ⟨s, hs, hw⟩ := Except.bind_eq_ok hw
      obtain rfl := Except.ok.inj hw
      rw [hv] at hk ⊢
      cases hkind : f.decl.kind <;> simp [hkind, Value.hasKind] at hk
      · refine (Decl.shiftInt_takes hs).bind_nil ?_
        dsimp only
        rw [addDelta_uint (hprevious.trans hbase) (Decl.sendable_eq_ok hdelta)]
        exact .pure _
      · simp [hkind, Operator.allowedOn] at hallowed
    · next v base hv hbase =>
      split at hw
      · next hexp =>
        obtain ⟨exponent, hexponent, hw⟩ := Except.bind_eq_ok hw
        obtain ⟨mantissa, hmantissa, hw⟩ := Except.bind_eq_ok hw
        obtain ⟨s, hs, hw⟩ := Except.bind_eq_ok hw
        obtain rfl := Except.ok.inj hw
        rw [hv] at hk ⊢
        cases hkind : f.decl.kind <;> simp [hkind, Value.hasKind] at hk
        refine (Decl.shiftPair_takes hs mantissa).bind_nil ?_
        dsimp only
        rw [addDecimalDelta_eq (hprevious.trans hbase) hexp (Decl.sendable_eq_ok hexponent)
          (Decl.sendable_eq_ok hmantissa)]
        exact .pure _
      · cases hw
    · cases hw

/-! ## The whole field -/

/-- What a check of the sender lets through. -/
theorem checkSendable_eq_ok (h : f.checkSendable = .ok ()) :
    f.decl.op.allowedOn f.decl.kind = true ∧
      (f.current.isAssigned = true → f.current.value.hasKind f.decl.kind = true) ∧
      (f.decl.op ≠ .constant → f.current.isAssigned = false → f.decl.isOptional = true) := by
  unfold checkSendable at h
  split at h
  · cases h
  · next hallowed =>
    split at h
    · cases h
    · next hkind =>
      split at h
      · cases h
      · next hmissing =>
        refine ⟨by simpa using hallowed, fun ha => by simpa [ha] using hkind, fun hop ha => ?_⟩
        cases hpresence : f.decl.presence with
        | optional => simp [Decl.isOptional, hpresence]
        | mandatory => simp [Decl.isMandatory, hpresence, ha, hop] at hmissing

theorem kind_ne_sequence (h : f.decl.op.allowedOn f.decl.kind = true) :
    f.decl.kind ≠ .sequence := by
  intro hkind
  rw [hkind] at h
  cases hop : f.decl.op <;> simp [hop, Operator.allowedOn] at h

theorem write_eq_ok {map : PresenceMap} {w : Written} (h : f.write map = .ok w) :
    f.checkSendable = .ok () ∧ f.mark map = .ok w.map ∧ f.payload = .ok w.bytes ∧
      w.field = f.remembering := by
  obtain ⟨⟨⟩, hcheck, h⟩ := Except.bind_eq_ok h
  obtain ⟨map', hmark, h⟩ := Except.bind_eq_ok h
  obtain ⟨bytes, hbytes, h⟩ := Except.bind_eq_ok h
  obtain rfl := Except.ok.inj h
  exact ⟨hcheck, hmark, hbytes, rfl⟩

theorem isSet_write {map : PresenceMap} {w : Written} (h : f.write map = .ok w)
    (i : Nat) : w.map.isSet i = (map.isSet i || (f.marks && f.bit == some i)) := by
  obtain ⟨-, hmark, -, -⟩ := write_eq_ok h
  unfold mark at hmark
  cases hm : f.marks with
  | false =>
    rw [hm, if_neg (by simp)] at hmark
    rw [Except.ok.inj hmark, Bool.false_and, Bool.or_false]
  | true =>
    rw [hm, if_pos rfl] at hmark
    split at hmark
    · next map' hset =>
      obtain rfl := Except.ok.inj hmark
      obtain ⟨bit, hbit, hset⟩ := Option.bind_eq_some_iff.1 hset
      rw [PresenceMap.isSet_set? hset, hbit, Bool.true_and, Option.some_beq_some, Bool.beq_comm]
    · cases hmark

/-- Once a field is written, the bit that was not set before shows whether it marked itself. -/
theorem isMarked_write {map : PresenceMap} {w : Written} (h : f.write map = .ok w)
    (hclear : f.isMarked map = false) : f.isMarked w.map = f.marks := by
  have hset := isSet_write h
  unfold isMarked at hclear ⊢
  cases hbit : f.bit with
  | none =>
    obtain ⟨-, hmark, -, -⟩ := write_eq_ok h
    cases hm : f.marks with
    | false => rfl
    | true =>
      rw [mark, if_pos hm, hbit] at hmark
      cases hmark
  | some bit =>
    rw [hbit, Option.any_some] at hclear
    rw [Option.any_some, hset, hclear, hbit, beq_self_eq_true, Bool.false_or, Bool.and_true]

/--
A field that was written is read back by a receiver that agrees, provided that the presence map
which is sent shows whether the field marked itself.
-/
theorem Agrees.read_takes (h : f.Agrees r) (hc : f.decl.HasConstant)
    (ht : f.decl.IsText f.current) {map : PresenceMap} {w : Written}
    (hw : f.write map = .ok w) {sent : PresenceMap} (hsent : r.isMarked sent = f.marks) :
    ∃ r', (r.read sent).Takes w.bytes r' ∧ w.field.Agrees r' ∧
      f.decl.Conveys f.current r'.current := by
  obtain ⟨hcheck, -, hbytes, hfield⟩ := write_eq_ok hw
  obtain ⟨hallowed, hkind, hpresent⟩ := checkSendable_eq_ok hcheck
  have hsequence := kind_ne_sequence hallowed
  rw [hfield]
  unfold Field.read
  rw [h.decl, if_pos hallowed]
  have kept (hop : f.decl.op = .copy ∨ f.decl.op = .increment) :
      ∃ r', (if r.isMarked sent then do return r.receiveKept (← f.decl.readValue)
          else Read.ofExcept r.inherit : Read Field).Takes w.bytes r' ∧
        f.remembering.Agrees r' ∧ f.decl.Conveys f.current r'.current := by
    have hconstant : f.decl.op ≠ .constant := by rcases hop with hop | hop <;> simp [hop]
    rw [payload_of_kept hop] at hbytes
    simp only [Decl.conveys_iff hconstant, hsent]
    cases hm : f.marks with
    | true =>
      rw [hm, if_pos rfl] at hbytes
      refine ⟨_, (Decl.writeValue_takes hbytes hsequence hkind (hpresent hconstant) ht).map _,
        h.receiveKept hop, holds_receiveKept _ _⟩
    | false =>
      rw [hm, if_neg (by simp)] at hbytes
      rw [marks_of_kept hop, Bool.not_eq_false'] at hm
      rw [if_neg (by simp), h.inherit hm (hpresent hconstant), ← Except.ok.inj hbytes]
      exact ⟨_, .pure _, h.receiveKept hop, holds_receiveKept _ _⟩
  cases hop : f.decl.op with
  | copy => exact kept (.inl hop)
  | increment => exact kept (.inr hop)
  | none =>
    have hconstant : f.decl.op ≠ .constant := by simp [hop]
    simp only [payload, hop] at hbytes
    simp only [Decl.conveys_iff hconstant]
    exact ⟨_, (Decl.writeValue_takes hbytes hsequence hkind (hpresent hconstant) ht).map _,
      h.receive hop _, holds_receive _ _⟩
  | delta =>
    have hconstant : f.decl.op ≠ .constant := by simp [hop]
    simp only [payload, hop] at hbytes
    simp only [Decl.conveys_iff hconstant]
    exact ⟨_, (h.readDelta_takes hbytes hallowed hop hkind (hpresent hconstant)).map _,
      h.receiveDelta hop, holds_receiveDelta _ _⟩
  | constant =>
    simp only [payload, hop] at hbytes
    obtain ⟨r', hr', hagrees, hconveys⟩ := h.takeConstant hop (hc hsequence hop) hsent
    dsimp only
    rw [hr', ← Except.ok.inj hbytes]
    exact ⟨r', .pure r', hagrees, hconveys⟩

end Field

/-! ## Declarations -/

namespace Decl

variable {d : Decl}

/-- What a codec relies on: the operator suits the kind, and so does the initial value if any. -/
structure Valid (d : Decl) : Prop where
  operator : d.op.allowedOn d.kind = true
  init : ∀ v, d.init = some v → v.hasKind d.kind = true

theorem Valid.kind_ne_sequence (h : d.Valid) : d.kind ≠ .sequence :=
  Field.kind_ne_sequence (f := .fresh d none) h.operator

theorem Valid.initial (h : d.Valid) : d.initial.hasKind d.kind = true := by
  unfold Decl.initial
  cases hinit : d.init with
  | none => exact Value.zero_hasKind d.kind
  | some v => exact h.init v hinit

end Decl

end MarketFeed
