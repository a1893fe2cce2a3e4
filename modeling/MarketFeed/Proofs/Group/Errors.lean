import MarketFeed.Proofs.Group.Agreement

/-!
# What writing fails for

A field that is declared well and finds room in the presence map fails for its value only. Rows move
the dictionary of a group but not what it declares, so that what all fields of these declarations
fail for is what the rows fail for.
-/

namespace MarketFeed

/-- The error is about the value alone. -/
def EncodeError.ofValue : EncodeError → Bool
  | valueOutOfRange _ | typeMismatch _ | exponentOutOfRange _ => true
  | _ => false

/-- If it fails, then with an error that has the property. -/
def FailsWith {α : Type} (p : EncodeError → Prop) (x : Except EncodeError α) : Prop :=
  ∀ e, x = .error e → p e

namespace FailsWith

variable {α β : Type} {p q : EncodeError → Prop} {x y : Except EncodeError α}

theorem ok (a : α) : FailsWith p (.ok a) := nofun

theorem error {e : EncodeError} (he : p e) : FailsWith p (.error e : Except _ α) := by
  rintro e' h
  obtain rfl := Except.error.inj h
  exact he

theorem mono (h : FailsWith p x) (hpq : ∀ e, p e → q e) : FailsWith q x :=
  fun e he => hpq e (h e he)

theorem bind {next : α → Except EncodeError β} (hx : FailsWith p x)
    (hn : ∀ a, FailsWith p (next a)) : FailsWith p (x >>= next) := by
  cases x with
  | ok a => exact hn a
  | error e => exact error (hx e rfl)

theorem ite {c : Prop} [Decidable c] (hx : c → FailsWith p x) (hy : ¬c → FailsWith p y) :
    FailsWith p (if c then x else y) := by
  split
  · exact hx ‹_›
  · exact hy ‹_›

end FailsWith

/-! ## Values -/

/-- If it fails, it is the value's fault. -/
def FailsByValue {α : Type} (x : Except EncodeError α) : Prop := FailsWith (·.ofValue = true) x

namespace Decl

variable (d : Decl)

theorem sendable_failsByValue {α : Type} (a? : Option α) : FailsByValue (d.sendable a?) := by
  cases a? with
  | some a => exact .ok a
  | none => exact .error rfl

theorem shiftInt_failsByValue (v : Int64) : FailsByValue (d.shiftInt v) :=
  .ite (fun _ => d.sendable_failsByValue _) fun _ => .ok v

theorem shiftUInt_failsByValue (v : UInt64) : FailsByValue (d.shiftUInt v) :=
  .ite (fun _ => d.sendable_failsByValue _) fun _ => .ok v

theorem writeValue_failsByValue (e : Entry) : FailsByValue (d.writeValue e) := by
  unfold writeValue
  refine .ite (fun _ => .ok _) fun _ => ?_
  cases e.value with
  | int v => exact .bind (d.shiftInt_failsByValue v) fun _ => .ok _
  | uint v => exact .bind (d.shiftUInt_failsByValue v) fun _ => .ok _
  | decimal v =>
    exact .ite (fun _ => .bind (d.shiftInt_failsByValue _) fun _ => .ok _) fun _ => .error rfl
  | bytes bs =>
    exact .ite (fun _ => .ite (fun _ => .error rfl) fun _ => .ite (fun _ => .error rfl)
      fun _ => .ok _) fun _ => .ite (fun _ => .error rfl) fun _ => .ok _

end Decl

namespace Field

theorem writeDelta_failsByValue (f : Field) : FailsByValue f.writeDelta := by
  have hsendable {α : Type} (a? : Option α) := f.decl.sendable_failsByValue a?
  have hshift := f.decl.shiftInt_failsByValue
  unfold writeDelta
  refine .ite (fun _ => .ok _) fun _ => ?_
  split
  · exact .bind (hsendable _) fun _ => .bind (hshift _) fun _ => .ok _
  · exact .bind (hsendable _) fun _ => .bind (hshift _) fun _ => .ok _
  · exact .ite (fun _ => .bind (hsendable _) fun _ => .bind (hsendable _) fun _ =>
      .bind (hshift _) fun _ => .ok _) fun _ => .error rfl
  · exact .error rfl

theorem payload_failsByValue (f : Field) : FailsByValue f.payload := by
  unfold payload
  cases f.decl.op with
  | none => exact f.decl.writeValue_failsByValue _
  | copy => exact .ite (fun _ => f.decl.writeValue_failsByValue _) fun _ => .ok _
  | increment => exact .ite (fun _ => f.decl.writeValue_failsByValue _) fun _ => .ok _
  | delta => exact f.writeDelta_failsByValue
  | constant => exact .ok _

variable {f : Field} {p : EncodeError → Prop} {map : PresenceMap}

/-- What a field fails for other than its value: its operator, no value at all, and no room. -/
theorem write_failsWith (hvalue : ∀ e, e.ofValue = true → p e)
    (hoperator : f.decl.op.allowedOn f.decl.kind = false →
      p (.invalidOperator f.decl.id f.decl.op))
    (hmissing : p (.mandatoryMissing f.decl.id))
    (hroom : f.marks = true → f.bit.bind map.set? = none → p (.pmapOverflow f.decl.id)) :
    FailsWith p (f.write map) := by
  have hcheck : FailsWith p f.checkSendable :=
    .ite (fun h => .error (hoperator (by simpa using h))) fun _ =>
      .ite (fun _ => .error (hvalue _ rfl)) fun _ => .ite (fun _ => .error hmissing) fun _ => .ok _
  have hmark : FailsWith p (f.mark map) := by
    refine .ite (fun hm => ?_) fun _ => .ok map
    split
    · exact .ok _
    · next hnone => exact .error (hroom hm hnone)
  exact .bind hcheck fun _ => .bind hmark fun _ => .bind (f.payload_failsByValue.mono hvalue)
    fun _ => .ok _

end Field

/-! ## Rows -/

namespace Group

/-- All fields with these declarations and bits fail with such errors, whatever they contain. -/
def CellsFailWith (p : EncodeError → Prop) (fields : List Field) : Prop :=
  ∀ f : Field, f.frame ∈ fields.map Field.frame →
    (f.decl.kind = .sequence → p .nestedSequence) ∧ ∀ map, FailsWith p (f.write map)

variable {p : EncodeError → Prop} {fields : List Field}

theorem writeCells_failsWith (h : CellsFailWith p fields) (row : Row) (map : PresenceMap) :
    FailsWith p (writeCells fields row map).1 := by
  induction fields generalizing row map with
  | nil => exact .ok _
  | cons f fields ih =>
    cases row with
    | nil => exact .ok _
    | cons entry row =>
      obtain ⟨hnested, hwrite⟩ := h (f.put entry) (List.mem_cons_self ..)
      have hcells := ih (fun f' hf' => h f' (List.mem_cons_of_mem _ hf')) row
      rw [writeCells]
      split
      · next hkind => exact .error (hnested hkind)
      · dsimp only
        split
        · next e he => exact .error (hwrite map e he)
        · next w hw =>
          split
          · next e rest hrest => exact .error (hcells w.map e (congrArg Prod.fst hrest))
          · exact .ok _

theorem writeRows_failsWith (withMap : Bool) (h : CellsFailWith p fields) (rows : List Row) :
    FailsWith p (writeRows withMap fields rows).1 := by
  induction rows generalizing fields with
  | nil => exact .ok _
  | cons row rows ih =>
    have hcells := writeCells_failsWith h row .empty
    have hframe := frame_writeCells fields row .empty
    rw [writeRows]
    split
    · next e rest hrest => exact .error (hcells e (congrArg Prod.fst hrest))
    · next map bytes fields' hrest =>
      rw [hrest] at hframe
      have hfields' : CellsFailWith p fields' := fun f hf => h f (hframe ▸ hf)
      have hrows := ih hfields'
      split
      · next e rest hrest => exact .error (hrows e (congrArg Prod.fst hrest))
      · exact .ok _

theorem write_failsWith {g : Group} {map : PresenceMap} (hlong : ∀ n max, p (.sequenceTooLong n max))
    (hlength : FailsWith p (g.length.write map)) (hdictionary : CellsFailWith p g.dictionary) :
    FailsWith p (g.write map).1 := by
  have hrows := writeRows_failsWith g.rowsHaveMap hdictionary
    ((g.rows ++ g.spare).take g.transmittedLength.toNat)
  unfold write
  dsimp only
  split
  · exact .error (hlong _ _)
  · split
    · next e he => exact .error (hlength e he)
    · next w hw =>
      split
      · next e rest hrest => exact .error (hrows e (congrArg Prod.fst hrest))
      · exact .ok _

end Group

end MarketFeed
