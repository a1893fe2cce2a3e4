import MarketFeed.Proofs.Wire.RoundTrip

/-!
# Values on the wire

A value that could be written is read back by the same declaration, whatever its kind, and NULL as
nothing. Of the Unicode texts this holds of the well-formed ones only.
-/

namespace MarketFeed

theorem Except.bind_eq_ok {ε α β : Type} {x : Except ε α} {f : α → Except ε β} {b : β}
    (h : (x >>= f) = .ok b) : ∃ a, x = .ok a ∧ f a = .ok b := by
  cases x with
  | error e => cases h
  | ok a => exact ⟨a, rfl, h⟩

namespace Decl

variable {d : Decl}

theorem sendable_eq_ok {α : Type} {v? : Option α} {v : α} (h : d.sendable v? = .ok v) :
    v? = some v := by
  cases v? with
  | none => cases h
  | some w =>
    obtain rfl := Except.ok.inj h
    rfl

/-! ## NULL -/

theorem null_takes_int : readInt.Takes nullBytes 0 := writeInt_takes 0

theorem null_takes_uint : readUInt.Takes nullBytes 0 := writeUInt_takes 0

theorem nullableInt_null : (Read.nullableInt true).Takes nullBytes none :=
  null_takes_int.map fun v => if true then unshiftInt v else some v

theorem nullableUInt_null : (Read.nullableUInt true).Takes nullBytes none :=
  null_takes_uint.map fun v => if true then unshiftUInt v else some v

theorem nullablePair_null : (Read.nullablePair true).Takes nullBytes none :=
  nullableInt_null.bind (.pure none)

theorem readVector_null (unicode : Bool) : (readVector true unicode).Takes nullBytes none :=
  nullableUInt_null.bind (.pure none)

theorem readValue_null (ho : d.isOptional = true) (hk : d.kind ≠ .sequence) :
    d.readValue.Takes nullBytes none := by
  unfold readValue
  rw [ho]
  cases hkind : d.kind with
  | int => exact nullableInt_null.map (·.map .int)
  | uint => exact nullableUInt_null.map (·.map .uint)
  | decimal => exact nullablePair_null.bind (.pure none)
  | ascii =>
    have htext : readText.Takes nullBytes [0] :=
      @writeText_takes [0] (by simp) (by simp) (by decide)
    exact htext.map fun run => (textOfRun true run).map .bytes
  | unicode => exact (readVector_null true).map (·.map .bytes)
  | bytes => exact (readVector_null false).map (·.map .bytes)
  | sequence => exact absurd hkind hk

/-! ## Integers -/

theorem shiftInt_takes {v s : Int64} (h : d.shiftInt v = .ok s) :
    (Read.nullableInt d.isOptional).Takes (writeInt s) (some v) := by
  have hread := (writeInt_takes s).map fun v => if d.isOptional then unshiftInt v else some v
  suffices hv : (if d.isOptional then unshiftInt s else some s) = some v by
    rw [hv] at hread
    exact hread
  unfold shiftInt at h
  cases ho : d.isOptional with
  | false =>
    rw [ho] at h
    obtain rfl := Except.ok.inj h
    rfl
  | true =>
    rw [ho, Bool.true_and] at h
    split at h
    · next hpos =>
      have hs := toInt64?_eq_some_iff.1 (sendable_eq_ok h)
      have hpos := Int64.le_iff_toInt_le.1 (of_decide_eq_true hpos)
      have hs0 : s ≠ 0 := by
        rintro rfl
        simp at hs hpos
        omega
      have hlt : 0 < s := by
        rw [Int64.lt_iff_toInt_lt, hs]
        simp at hpos ⊢
        omega
      have hv : s - 1 = v := by
        have := v.le_toInt
        have := v.toInt_lt
        rw [← Int64.toInt_inj, Int64.toInt_sub, hs]
        simp [Int.bmod_def]
        omega
      rw [if_pos rfl, unshiftInt, if_neg hs0, if_pos hlt, hv]
    · next hneg =>
      obtain rfl := Except.ok.inj h
      have hneg := Int.not_le.1 (fun hle => hneg (decide_eq_true (Int64.le_iff_toInt_le.2 hle)))
      have hv0 : v ≠ 0 := by
        rintro rfl
        simp at hneg
      have hlt : ¬ 0 < v := by
        rw [Int64.lt_iff_toInt_lt]
        omega
      rw [if_pos rfl, unshiftInt, if_neg hv0, if_neg hlt]

theorem shiftPair_takes {v s : Int64} (h : d.shiftInt v = .ok s) (second : Int64) :
    (Read.nullablePair d.isOptional).Takes (writeInt s ++ writeInt second) (some (v, second)) :=
  (shiftInt_takes h).bind ((writeInt_takes second).map fun second => some (v, second))

theorem shiftUInt_takes {v s : UInt64} (h : d.shiftUInt v = .ok s) :
    (Read.nullableUInt d.isOptional).Takes (writeUInt s) (some v) := by
  have hread := (writeUInt_takes s).map fun v => if d.isOptional then unshiftUInt v else some v
  suffices hv : (if d.isOptional then unshiftUInt s else some s) = some v by
    rw [hv] at hread
    exact hread
  unfold shiftUInt at h
  cases ho : d.isOptional with
  | false =>
    rw [ho] at h
    obtain rfl := Except.ok.inj h
    rfl
  | true =>
    rw [ho, if_pos rfl] at h
    have hs := toUInt64?_eq_some_iff.1 (sendable_eq_ok h)
    have hs0 : s ≠ 0 := by
      rintro rfl
      simp at hs
      omega
    have hv : s - 1 = v := by
      have := v.toNat_lt
      rw [← UInt64.toNat_inj,
        UInt64.toNat_sub_of_le _ _ (by rw [UInt64.le_iff_toNat_le]; simp; omega)]
      simp
      omega
    rw [if_pos rfl, unshiftUInt, if_neg hs0, hv]

/-! ## Texts and vectors -/

/-- The run that a text is sent as. -/
def runOf (optional : Bool) (text : List UInt8) : List UInt8 :=
  if text.all (· == 0) then text ++ List.replicate (if optional then 2 else 1) 0 else text

theorem textOfRun_runOf (optional : Bool) (text : List UInt8) :
    textOfRun optional (runOf optional text) = some text := by
  unfold runOf
  split
  · next hzero =>
    have htext : text = List.replicate text.length 0 :=
      List.eq_replicate_of_mem fun b hb => by simpa using List.all_eq_true.1 hzero b hb
    have hdrop (k : Nat) : (text ++ List.replicate k 0).drop k = text := by
      conv_lhs =>
        rw [htext, List.replicate_append_replicate, List.drop_replicate, Nat.add_sub_cancel]
      exact htext.symm
    have hzeros (k : Nat) : (text ++ List.replicate k 0).all (· == 0) = true := by
      rw [List.all_append, hzero]
      simp
    rw [textOfRun, if_pos (hzeros _)]
    cases optional with
    | true =>
      simp only [if_true, List.length_append, List.length_replicate, hdrop]
      rw [if_neg (by omega)]
    | false => simp only [Bool.false_eq_true, if_false, hdrop]
  · next hzero => rw [textOfRun, if_neg hzero]

theorem runOf_ne_nil (optional : Bool) (text : List UInt8) : runOf optional text ≠ [] := by
  unfold runOf
  split
  · cases optional <;> simp
  · next hzero =>
    rintro rfl
    simp at hzero

theorem lt_of_mem_runOf {optional : Bool} {text : List UInt8} (h : ∀ b ∈ text, b.toNat < 128) :
    ∀ b ∈ runOf optional text, b.toNat < 128 := by
  unfold runOf
  split
  · intro b hb
    rcases List.mem_append.1 hb with hb | hb
    · exact h b hb
    · rw [List.eq_of_mem_replicate hb]
      decide
  · exact h

theorem writeAscii_takes {text bytes : List UInt8} (h : d.writeAscii text = .ok bytes) :
    (readText >>= fun run => pure ((textOfRun d.isOptional run).map Value.bytes)).Takes bytes
      (some (.bytes text)) := by
  unfold writeAscii at h
  split at h
  · cases h
  · next hsmall =>
    have hsmall : ∀ b ∈ text, b.toNat < 128 := fun b hb => by
      simp only [List.any_eq_true, decide_eq_true_eq, not_exists, not_and] at hsmall
      have := hsmall b hb
      rw [UInt8.le_iff_toNat_le] at this
      exact Nat.not_le.1 this
    change (if maxTextBytes < (runOf d.isOptional text).length then _ else
      Except.ok (writeText (runOf d.isOptional text))) = _ at h
    split at h
    · cases h
    · next hlen =>
      obtain rfl := Except.ok.inj h
      have hread := (writeText_takes (runOf_ne_nil d.isOptional text) (lt_of_mem_runOf hsmall)
        (Nat.not_lt.1 hlen)).map fun run => (textOfRun d.isOptional run).map Value.bytes
      rw [textOfRun_runOf] at hread
      exact hread

/-- A vector is its bytes behind their number, which is read back. -/
theorem writeVector_eq_ok {data bytes : List UInt8} (h : d.writeVector data = .ok bytes) :
    data.length ≤ maxVectorBytes ∧ ∃ length, bytes = writeUInt length ++ data ∧
      (Read.nullableUInt d.isOptional).Takes (writeUInt length) (some (.ofNat data.length)) := by
  unfold writeVector at h
  split at h
  · cases h
  · next hlen =>
    obtain rfl := Except.ok.inj h
    simp only [maxVectorBytes, Nat.not_lt] at hlen
    refine ⟨hlen, _, rfl, shiftUInt_takes ?_⟩
    unfold shiftUInt
    cases d.isOptional with
    | false => rfl
    | true =>
      have : toUInt64? ((UInt64.ofNat data.length).toNat + 1) =
          some (UInt64.ofNat (data.length + 1)) := by
        rw [toUInt64?_eq_some_iff]
        simp only [UInt64.toNat_ofNat']
        omega
      simp only [if_true]
      exact congrArg d.sendable this

theorem toNat_vectorLength {data : List UInt8} (h : data.length ≤ maxVectorBytes) :
    (UInt64.ofNat data.length).toNat = data.length := by
  simp only [maxVectorBytes] at h
  rw [UInt64.toNat_ofNat']
  omega

theorem writeVector_takes {data bytes : List UInt8} (h : d.writeVector data = .ok bytes)
    (unicode : Bool) (hu : unicode = true → (utf8? data).isSome) :
    (readVector d.isOptional unicode).Takes bytes (some data) := by
  obtain ⟨hlen, length, rfl, hlength⟩ := writeVector_eq_ok h
  refine hlength.bind ?_
  dsimp only
  rw [toNat_vectorLength hlen, if_neg (Nat.not_lt.2 hlen)]
  refine (Read.Takes.take data).bind_nil ?_
  rw [if_neg]
  · exact .pure (some data)
  · simp only [Bool.and_eq_true, not_and]
    intro h
    have := hu h
    simp [Option.isNone_iff_eq_none, Option.isSome_iff_ne_none.1 this]

/-! ## Values -/

/-- What a Unicode field holds is well-formed. -/
def IsText (d : Decl) (e : Entry) : Prop :=
  d.kind = .unicode → e.asBytes.all fun bs => (utf8? bs).isSome

instance (d : Decl) (e : Entry) : Decidable (d.IsText e) :=
  inferInstanceAs (Decidable (_ → _))

/-- The value that was assigned is read back, or NULL if there was none. -/
theorem writeValue_takes {e : Entry} {bytes : List UInt8} (h : d.writeValue e = .ok bytes)
    (hk : d.kind ≠ .sequence) (hv : e.isAssigned = true → e.value.hasKind d.kind = true)
    (ho : e.isAssigned = false → d.isOptional = true) (ht : d.IsText e) :
    d.readValue.Takes bytes e.value? := by
  unfold writeValue at h
  cases ha : e.isAssigned with
  | false =>
    simp only [ha, Bool.not_false, if_true] at h
    obtain rfl := Except.ok.inj h
    rw [Entry.value?, ha]
    exact readValue_null (ho ha) hk
  | true =>
    have hv := hv ha
    simp only [ha, Bool.not_true, Bool.false_eq_true, if_false] at h
    have hvalue : e.value? = some e.value := by
      rw [Entry.value?, ha]
      rfl
    rw [hvalue]
    unfold readValue
    cases hval : e.value with
    | int v =>
      rw [hval] at h hv
      obtain ⟨s, hs, h⟩ := Except.bind_eq_ok h
      obtain rfl := Except.ok.inj h
      cases hkind : d.kind <;> simp [hkind, Value.hasKind] at hv
      exact (shiftInt_takes hs).map (Option.map Value.int)
    | uint v =>
      rw [hval] at h hv
      obtain ⟨s, hs, h⟩ := Except.bind_eq_ok h
      obtain rfl := Except.ok.inj h
      cases hkind : d.kind <;> simp [hkind, Value.hasKind] at hv
      · exact (shiftUInt_takes hs).map (Option.map Value.uint)
      · exact absurd hkind hk
    | decimal v =>
      rw [hval] at h hv
      dsimp only at h
      split at h
      · next hexp =>
        obtain ⟨s, hs, h⟩ := Except.bind_eq_ok h
        obtain rfl := Except.ok.inj h
        cases hkind : d.kind <;> simp [hkind, Value.hasKind] at hv
        refine (shiftPair_takes hs v.mantissa).bind_nil ?_
        dsimp only
        rw [checkedDecimal, if_pos hexp]
        exact .pure _
      · cases h
    | bytes bs =>
      rw [hval] at h hv
      dsimp only at h
      split at h
      · next hkind =>
        rw [hkind]
        exact writeAscii_takes h
      · next hascii =>
        cases hkind : d.kind <;> simp [hkind, Value.hasKind, Kind.isByteLike] at hv
        · exact absurd hkind hascii
        · have hbytes : e.asBytes = some bs := by
            simp [Entry.asBytes, hvalue, hval, Value.asBytes]
          have hu := ht hkind
          rw [hbytes, Option.all_some] at hu
          exact (writeVector_takes h true fun _ => hu).map (Option.map Value.bytes)
        · exact (writeVector_takes h false (by simp)).map (Option.map Value.bytes)

end Decl

end MarketFeed
