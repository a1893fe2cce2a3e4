import MarketFeed.Proofs.Field.Relay
import MarketFeed.Proofs.Wire.Contract

/-!
# What a field comes to

A field whose declaration is valid, and whose entries hold values of its kind, is read into one of
the same sort, takes at most 1034 bytes and is never garbled on account of its declaration:
`Field.Kinded.read_meets`. Nothing is assumed of the bytes.
-/

namespace MarketFeed

/-- The most bytes of a token: a length and the bytes it announces. -/
def maxTokenBytes : Nat := maxIntegerBytes + maxVectorBytes

/-! ## Values -/

namespace Decl

variable {d : Decl}

/-- A value that was read, if one was, is of the kind. -/
def Suits (d : Decl) (v? : Option Value) : Prop := ∀ v, v? = some v → v.hasKind d.kind = true

theorem suits_none : d.Suits none := fun _ h => by cases h

theorem suits_some {v : Value} (h : v.hasKind d.kind = true) : d.Suits (some v) :=
  fun _ hv => Option.some.inj hv ▸ h

theorem suits_map {α : Type} {f : α → Value} (hf : ∀ a, (f a).hasKind d.kind = true)
    (a? : Option α) : d.Suits (a?.map f) := by
  cases a? with
  | none => exact suits_none
  | some a => exact suits_some (hf a)

theorem checkedDecimal_eq_ok {mantissa exponent : Int64} {v : Value}
    (h : checkedDecimal mantissa exponent = .ok v) : v = .decimal ⟨mantissa, exponent⟩ := by
  unfold checkedDecimal at h
  dsimp only at h
  split at h
  · exact (Except.ok.inj h).symm
  · cases h

theorem refuses_checkedDecimal {mantissa exponent : Int64} {e : DecodeError}
    (h : checkedDecimal mantissa exponent = .error e) : e.refuses = false := by
  unfold checkedDecimal at h
  dsimp only at h
  split at h
  · cases h
  · obtain rfl := Except.error.inj h
    rfl

theorem readValue_meets (hk : d.kind ≠ .sequence) : d.readValue.Meets d.Suits maxTokenBytes := by
  obtain ⟨name, id, kind, op, presence, init⟩ := d
  cases kind with
  | int =>
    refine Read.Meets.atMost (.map (Read.nullableInt_meets _) fun v? _ => ?_) (by decide)
    exact suits_map (f := .int) (fun _ => rfl) v?
  | uint =>
    refine Read.Meets.atMost (.map (Read.nullableUInt_meets _) fun v? _ => ?_) (by decide)
    exact suits_map (f := .uint) (fun _ => rfl) v?
  | ascii =>
    refine Read.Meets.atMost (.map readText_meets fun run _ => ?_) (by decide)
    exact suits_map (f := .bytes) (fun _ => rfl) (textOfRun _ run)
  | unicode =>
    exact (readVector_meets _ _).map fun v? _ => suits_map (f := .bytes) (fun _ => rfl) v?
  | bytes =>
    exact (readVector_meets _ _).map fun v? _ => suits_map (f := .bytes) (fun _ => rfl) v?
  | decimal =>
    refine Read.Meets.atMost (.bind (n := 0) (Read.nullablePair_meets _) fun pair _ => ?_)
      (by decide)
    cases pair with
    | none => exact .pure suits_none
    | some pair =>
      refine .map (.ofExcept (fun v hv => ?_) fun e he => refuses_checkedDecimal he)
        fun v hv => suits_some hv
      rw [checkedDecimal_eq_ok hv]
      rfl
  | sequence => exact absurd rfl hk

end Decl

/-! ## Fields -/

/-- A field that was declared validly, and both of whose entries hold values of its kind. -/
structure Field.Kinded (f : Field) : Prop where
  valid : f.decl.Valid
  current : f.current.value.hasKind f.decl.kind = true
  previous : f.previous.value.hasKind f.decl.kind = true

namespace Field

variable {f f' : Field} {v : Value} {v? : Option Value}

theorem kinded_fresh {d : Decl} (h : d.Valid) (bit : Option Nat) : (fresh d bit).Kinded :=
  ⟨h, h.initial, h.initial⟩

theorem Kinded.reset (h : f.Kinded) : f.reset.Kinded := kinded_fresh h.valid f.bit

theorem Kinded.receive (h : f.Kinded) (hv : f.decl.Suits v?) : (f.receive v?).Kinded := by
  cases v? with
  | some v => exact ⟨h.valid, hv v rfl, h.previous⟩
  | none => exact ⟨h.valid, h.current, h.previous⟩

theorem Kinded.receiveKept (h : f.Kinded) (hv : f.decl.Suits v?) : (f.receiveKept v?).Kinded := by
  cases v? with
  | some v => exact ⟨h.valid, hv v rfl, hv v rfl⟩
  | none => exact ⟨h.valid, h.current, h.previous⟩

theorem Kinded.receiveDelta (h : f.Kinded) (hv : f.decl.Suits v?) :
    (f.receiveDelta v?).Kinded := by
  cases v? with
  | some v => exact ⟨h.valid, hv v rfl, hv v rfl⟩
  | none => exact ⟨h.valid, h.current, h.previous⟩

/-! ## What is inferred -/

theorem Kinded.inherit (h : f.Kinded) (hf : f.inherit = .ok f') : f'.Kinded := by
  rcases inherit_eq_ok hf with ⟨v, rfl, hcase⟩ | ⟨rfl, -, -⟩
  · refine h.receiveKept (Decl.suits_some ?_)
    rcases hcase with ⟨-, hvalue⟩ | ⟨-, hinit⟩
    · split at hvalue
      · exact Value.hasKind_of_successor hvalue h.previous
      · exact hvalue ▸ h.previous
    · exact h.valid.init v hinit
  · exact h.receiveKept Decl.suits_none

theorem refuses_inherit {e : DecodeError} (h : f.inherit = .error e) : e.refuses = false := by
  unfold Field.inherit at h
  repeat' split at h
  all_goals first
    | cases h; done
    | obtain rfl := Except.error.inj h; rfl

theorem Kinded.takeConstant (h : f.Kinded) {map : PresenceMap}
    (hf : f.takeConstant map = .ok f') : f'.Kinded := by
  rcases takeConstant_eq_ok hf with ⟨-, -, rfl⟩ | ⟨v, hv, -, rfl⟩
  · exact ⟨h.valid, h.current, h.previous⟩
  · exact ⟨h.valid, h.valid.init v hv, h.previous⟩

theorem refuses_takeConstant {map : PresenceMap} {e : DecodeError}
    (h : f.takeConstant map = .error e) : e.refuses = false := by
  unfold Field.takeConstant at h
  repeat' split at h
  all_goals first
    | cases h; done
    | obtain rfl := Except.error.inj h; rfl

/-! ## Deltas -/

/-- A sum is of the shape that was counted from. -/
theorem hasKind_addDelta {delta : Int64} (h : f.addDelta delta = .ok v)
    (hprevious : f.previous.value.hasKind f.decl.kind = true) :
    v.hasKind f.decl.kind = true := by
  rcases addDelta_eq_ok h with ⟨base, w, hbase, rfl, -⟩ | ⟨base, w, hbase, rfl, -⟩
  · rwa [hbase, Value.hasKind_int base w] at hprevious
  · rwa [hbase, Value.hasKind_uint base w] at hprevious

theorem refuses_addDelta {delta : Int64} {e : DecodeError} (h : f.addDelta delta = .error e) :
    e.refuses = false := by
  unfold addDelta at h
  dsimp only at h
  split at h
  · cases h
  · obtain rfl := Except.error.inj h
    rfl

theorem addDecimalDelta_cases {exponent mantissa : Int64} {x : Except DecodeError Value}
    (h : f.addDecimalDelta exponent mantissa = x) :
    x = .error .integerOverflow ∨
      ∃ mantissa exponent, checkedDecimal mantissa exponent = x := by
  unfold addDecimalDelta at h
  dsimp only at h
  split at h
  · exact .inr ⟨_, _, h⟩
  · exact .inl h.symm

theorem readDelta_meets (h : f.Kinded) (hop : f.decl.op = .delta) :
    f.readDelta.Meets f.decl.Suits maxTokenBytes := by
  have hallowed := h.valid.operator
  unfold readDelta
  split
  case h_1 | h_2 =>
    refine Read.Meets.atMost (.bind (n := 0) (Read.nullableInt_meets _) fun delta? _ => ?_)
      (by decide)
    cases delta? with
    | none => exact .pure Decl.suits_none
    | some delta =>
      exact .map (.ofExcept (fun v hv => hasKind_addDelta hv h.previous)
        fun e he => refuses_addDelta he) fun v hv => Decl.suits_some hv
  case h_3 hkind =>
    refine Read.Meets.atMost (.bind (n := 0) (Read.nullablePair_meets _) fun pair _ => ?_)
      (by decide)
    cases pair with
    | none => exact .pure Decl.suits_none
    | some pair =>
      refine .map (.ofExcept (fun v hv => ?_) fun e he => ?_) fun v hv => Decl.suits_some hv
      · rcases addDecimalDelta_cases hv with hv | ⟨mantissa, exponent, hv⟩
        · cases hv
        · rw [Decl.checkedDecimal_eq_ok hv, hkind]
          rfl
      · rcases addDecimalDelta_cases he with he | ⟨mantissa, exponent, he⟩
        · obtain rfl := Except.error.inj he
          rfl
        · exact Decl.refuses_checkedDecimal he
  -- No delta is allowed on what is neither an integer nor a decimal.
  case h_4 hint huint hdecimal =>
    rw [hop] at hallowed
    cases hkind : f.decl.kind <;> simp_all [Operator.allowedOn]

/-! ## The whole field -/

theorem Kinded.read_meets (h : f.Kinded) (map : PresenceMap) :
    (f.read map).Meets Kinded maxTokenBytes := by
  have hvalue := Decl.readValue_meets h.valid.kind_ne_sequence
  have kept (hop : f.decl.op = .copy ∨ f.decl.op = .increment) :
      (f.read map).Meets Kinded maxTokenBytes := by
    rw [read_kept h.valid.operator hop]
    exact .ite (fun _ => hvalue.map fun v? hv => h.receiveKept hv) fun _ =>
      .ofExcept (fun f' hf => h.inherit hf) fun e he => refuses_inherit he
  cases hop : f.decl.op with
  | copy => exact kept (.inl hop)
  | increment => exact kept (.inr hop)
  | none =>
    rw [read, if_pos h.valid.operator, hop]
    exact hvalue.map fun v? hv => h.receive hv
  | delta =>
    rw [read, if_pos h.valid.operator, hop]
    exact (readDelta_meets h hop).map fun v? hv => h.receiveDelta hv
  | constant =>
    rw [read, if_pos h.valid.operator, hop]
    exact .ofExcept (fun f' hf => h.takeConstant hf) fun e he => refuses_takeConstant he

end Field

end MarketFeed
