import MarketFeed.Proofs.Field.Agreement
import MarketFeed.Proofs.Wire.Cost

/-!
# Values can be sent again

What a declaration has read it can write, and in no more bytes than it was read from:
`Decl.readValue_costs`. The bytes may differ, since a run can be longer than its value needs.
-/

namespace MarketFeed

namespace Entry

theorem value?_of_holds {e : Entry} {v? : Option Value} (h : e.Holds v?) : e.value? = v? := by
  cases v? with
  | some v =>
    obtain rfl : e = .assigned v := h
    rfl
  | none =>
    refine value?_of_not_isAssigned ?_
    rw [isAssigned, show e.state = .empty from h]
    rfl

theorem value?_eq_none {e : Entry} : e.value? = none ↔ e.isAssigned = false := by
  cases ha : e.isAssigned with
  | true => simp [value?_of_isAssigned ha]
  | false => simp [value?_of_not_isAssigned ha]

theorem eq_assigned_of_value? {e : Entry} {v : Value} (h : e.value? = some v) :
    e = .assigned v := by
  cases ha : e.isAssigned with
  | true =>
    rw [value?_of_isAssigned ha] at h
    rw [← Option.some.inj h]
    exact eq_assigned ha
  | false =>
    rw [value?_of_not_isAssigned ha] at h
    cases h

end Entry

/-! ## Values -/

namespace Decl

variable {d : Decl}

/-- A field of the declaration may hold this value, or none. -/
structure Admits (d : Decl) (v? : Option Value) : Prop where
  optional : v? = none → d.isOptional = true
  kind : ∀ v, v? = some v → v.hasKind d.kind = true

theorem Admits.null (ho : d.isOptional = true) : d.Admits none where
  optional _ := ho
  kind _ h := by cases h

theorem Admits.value {v : Value} (hk : v.hasKind d.kind = true) : d.Admits (some v) where
  optional h := by cases h
  kind w h := by rwa [← Option.some.inj h]

/-- The value, or NULL, is written in at most so many bytes, and can be read back. -/
structure Resends (d : Decl) (v? : Option Value) (n : Nat) : Prop where
  admits : d.Admits v?
  writes : ∀ e : Entry, e.value? = v? →
    d.IsText e ∧ ∃ bytes, d.writeValue e = .ok bytes ∧ bytes.length ≤ n

theorem Resends.null (ho : d.isOptional = true) {n : Nat} (hn : 0 < n) : d.Resends none n where
  admits := .null ho
  writes e he := by
    refine ⟨fun _ => by rw [Entry.asBytes, he]; rfl, nullBytes, ?_, hn⟩
    rw [writeValue, Entry.value?_eq_none.1 he]
    rfl

theorem Resends.value {v : Value} {n : Nat} (hk : v.hasKind d.kind = true)
    (ht : d.IsText (.assigned v))
    (hw : ∃ bytes, d.writeValue (.assigned v) = .ok bytes ∧ bytes.length ≤ n) :
    d.Resends (some v) n where
  admits := .value hk
  writes e he := by
    rw [Entry.eq_assigned_of_value? he]
    exact ⟨ht, hw⟩

/-- The integer is sent, shifted if need be, in at most so many bytes; NULL takes at least one. -/
def ResendsInt (d : Decl) : Option Int64 → Nat → Prop
  | some v, n => ∃ s, d.shiftInt v = .ok s ∧ (writeInt s).length ≤ n
  | none, n => d.isOptional = true ∧ 0 < n

def ResendsUInt (d : Decl) : Option UInt64 → Nat → Prop
  | some v, n => ∃ s, d.shiftUInt v = .ok s ∧ (writeUInt s).length ≤ n
  | none, n => d.isOptional = true ∧ 0 < n

theorem shiftInt_of_unshiftInt (ho : d.isOptional = true) {s v : Int64}
    (h : unshiftInt s = some v) : d.shiftInt v = .ok s := by
  unfold unshiftInt at h
  split at h
  · cases h
  · next hs0 =>
    split at h
    · next hpos =>
      obtain rfl := Option.some.inj h
      rw [Int64.lt_iff_toInt_lt] at hpos
      have hlt := s.toInt_lt
      have hsub : (s - 1).toInt = s.toInt - 1 := by
        rw [Int64.toInt_sub]
        simp [Int.bmod_def] at hpos ⊢
        omega
      have hnonneg : 0 ≤ s - 1 := by
        rw [Int64.le_iff_toInt_le, hsub]
        simp at hpos ⊢
        omega
      have hsum : toInt64? ((s - 1).toInt + 1) = some s := by
        rw [toInt64?_eq_some_iff, hsub]
        omega
      rw [shiftInt, ho, decide_eq_true hnonneg, Bool.and_self, if_pos rfl, hsum]
      rfl
    · next hneg =>
      obtain rfl := Option.some.inj h
      have hlt : ¬ 0 ≤ s := by
        intro hle
        rw [Int64.lt_iff_toInt_lt] at hneg
        rw [Int64.le_iff_toInt_le] at hle
        exact hs0 (Int64.toInt_inj.1 (by omega))
      rw [shiftInt, decide_eq_false hlt, Bool.and_false, if_neg (by simp)]

theorem shiftUInt_of_unshiftUInt (ho : d.isOptional = true) {s v : UInt64}
    (h : unshiftUInt s = some v) : d.shiftUInt v = .ok s := by
  unfold unshiftUInt at h
  split at h
  · cases h
  · next hs0 =>
    obtain rfl := Option.some.inj h
    have hpos : 1 ≤ s := by
      rw [UInt64.le_iff_toNat_le]
      have : s.toNat ≠ 0 := fun hz => hs0 (UInt64.toNat_inj.1 hz)
      simp
      omega
    have hsum : toUInt64? ((s - 1).toNat + 1) = some s := by
      rw [toUInt64?_eq_some_iff, UInt64.toNat_sub_of_le _ _ hpos]
      rw [UInt64.le_iff_toNat_le] at hpos
      simp at hpos ⊢
      omega
    rw [shiftUInt, ho, if_pos rfl, hsum]
    rfl

theorem nullableInt_costs (d : Decl) : (Read.nullableInt d.isOptional).Costs d.ResendsInt := by
  refine readInt_costs.map fun s n hn => ?_
  cases ho : d.isOptional with
  | false =>
    refine ⟨s, ?_, hn⟩
    rw [shiftInt, ho]
    rfl
  | true =>
    rw [if_pos rfl]
    cases hv : unshiftInt s with
    | some v => exact ⟨s, shiftInt_of_unshiftInt ho hv, hn⟩
    | none => exact ⟨ho, Nat.lt_of_lt_of_le (intSize_pos s) (length_writeInt s ▸ hn)⟩

theorem nullableUInt_costs (d : Decl) : (Read.nullableUInt d.isOptional).Costs d.ResendsUInt := by
  refine readUInt_costs.map fun s n hn => ?_
  cases ho : d.isOptional with
  | false =>
    refine ⟨s, ?_, hn⟩
    rw [shiftUInt, ho]
    rfl
  | true =>
    rw [if_pos rfl]
    cases hv : unshiftUInt s with
    | some v => exact ⟨s, shiftUInt_of_unshiftUInt ho hv, hn⟩
    | none => exact ⟨ho, Nat.lt_of_lt_of_le (uintSize_pos s) (length_writeUInt s ▸ hn)⟩

/-- The first number is sent as a nullable one, the second as it is. -/
def ResendsPair (d : Decl) : Option (Int64 × Int64) → Nat → Prop
  | some (v, w), n => ∃ s, d.shiftInt v = .ok s ∧ (writeInt s ++ writeInt w).length ≤ n
  | none, n => d.isOptional = true ∧ 0 < n

theorem nullablePair_costs (d : Decl) :
    (Read.nullablePair d.isOptional).Costs d.ResendsPair := by
  refine d.nullableInt_costs.bind fun v? n hv => ?_
  cases v? with
  | none => exact .pure hv
  | some v =>
    obtain ⟨s, hs, hn⟩ := hv
    refine readInt_costs.map fun w k hk => ⟨s, hs, ?_⟩
    rw [List.length_append]
    omega

/-! ### Texts and vectors -/

theorem runOf_of_textOfRun {optional : Bool} {run text : List UInt8} (hne : run ≠ [])
    (h : textOfRun optional run = some text) : runOf optional text = run := by
  unfold textOfRun at h
  split at h
  · next hzero =>
    have hrun : run = List.replicate run.length 0 :=
      List.eq_replicate_of_mem fun b hb => by simpa using List.all_eq_true.1 hzero b hb
    have hpos := List.length_pos_iff.2 hne
    -- Zeros that were taken off the run are put back.
    have back (k : Nat) (hk : k ≤ run.length) :
        run.drop k ++ List.replicate k 0 = run := by
      conv_rhs => rw [hrun]
      rw [hrun, List.drop_replicate, List.replicate_append_replicate, List.length_replicate,
        Nat.sub_add_cancel hk]
    have hall (k : Nat) : (run.drop k).all (· == 0) = true := by
      rw [hrun, List.drop_replicate]
      simp
    split at h
    · next ho =>
      split at h
      · cases h
      · next hlen =>
        obtain rfl := Option.some.inj h
        rw [runOf, if_pos (hall 2), if_pos ho, back 2 (by omega)]
    · next ho =>
      obtain rfl := Option.some.inj h
      rw [runOf, if_pos (hall 1), if_neg ho, back 1 hpos]
  · next hzero =>
    obtain rfl := Option.some.inj h
    rw [runOf, if_neg hzero]

theorem mem_of_textOfRun {optional : Bool} {run text : List UInt8}
    (h : textOfRun optional run = some text) : ∀ b ∈ text, b ∈ run := by
  unfold textOfRun at h
  repeat' split at h
  all_goals first
    | cases h; done
    | obtain rfl := Option.some.inj h
      exact fun b hb => by first | exact hb | exact List.mem_of_mem_drop hb

theorem optional_of_textOfRun {optional : Bool} {run : List UInt8}
    (h : textOfRun optional run = none) : optional = true := by
  unfold textOfRun at h
  repeat' split at h
  all_goals first
    | cases h; done
    | assumption

theorem readAscii_costs (hkind : d.kind = .ascii) :
    (readText >>= fun run => pure ((textOfRun d.isOptional run).map Value.bytes)).Costs
      d.Resends := by
  refine (readTextFrom_costs maxTextBytes).map fun run n ⟨hlen, hne, hmax, hsmall⟩ => ?_
  cases htext : textOfRun d.isOptional run with
  | none => exact .null (optional_of_textOfRun htext) (hlen ▸ List.length_pos_iff.2 hne)
  | some text =>
    have hrun := runOf_of_textOfRun hne htext
    have hascii : ¬ text.any (128 ≤ ·) := by
      simp only [List.any_eq_true, decide_eq_true_eq, not_exists, not_and]
      intro b hb hle
      rw [UInt8.le_iff_toNat_le] at hle
      exact Nat.not_le.2 (hsmall b (mem_of_textOfRun htext b hb)) hle
    refine .value (by rw [hkind]; rfl) (by simp [IsText, hkind]) ⟨writeText run, ?_, ?_⟩
    · change (if d.kind = .ascii then d.writeAscii text else d.writeVector text) = _
      rw [if_pos hkind, writeAscii, if_neg hascii]
      change (if maxTextBytes < (runOf d.isOptional text).length then _ else
        Except.ok (writeText (runOf d.isOptional text))) = _
      rw [hrun, if_neg (by omega)]
    · rw [length_writeText hne]
      omega

theorem readVector_costs (d : Decl) (unicode : Bool) :
    (readVector d.isOptional unicode).Costs fun data? n =>
      match data? with
      | some data => (unicode = true → (utf8? data).isSome) ∧
          ∃ bytes, d.writeVector data = .ok bytes ∧ bytes.length ≤ n
      | none => d.isOptional = true ∧ 0 < n := by
  refine d.nullableUInt_costs.bind fun length? n hlength => ?_
  cases length? with
  | none => exact .pure hlength
  | some length =>
    obtain ⟨s, hs, hn⟩ := hlength
    refine .ite (fun _ => .fail _) fun hmax => (Read.Costs.take _).bind fun data k ⟨hk, hdata⟩ => ?_
    refine .ite (fun _ => .fail _) fun hu => .pure ⟨fun h => ?_, writeUInt s ++ data, ?_, ?_⟩
    · rw [h, Bool.true_and, Bool.not_eq_true, Option.isNone_eq_false_iff] at hu
      exact hu
    · have hsize : UInt64.ofNat (data.length + if d.isOptional then 1 else 0) = s := by
        unfold shiftUInt at hs
        cases ho : d.isOptional with
        | false =>
          rw [ho] at hs
          rw [← Except.ok.inj hs, hdata]
          simp
        | true =>
          rw [ho, if_pos rfl] at hs
          have hs := toUInt64?_eq_some_iff.1 (sendable_eq_ok hs)
          rw [if_pos rfl, hdata, ← UInt64.toNat_inj, UInt64.toNat_ofNat']
          have := s.toNat_lt
          omega
      rw [writeVector, if_neg (by omega), hsize]
    · rw [List.length_append]
      omega

theorem readData_costs (unicode : Bool) (hkind : d.kind = if unicode then .unicode else .bytes) :
    (readVector d.isOptional unicode >>= fun data? => pure (data?.map Value.bytes)).Costs
      d.Resends := by
  refine (d.readVector_costs unicode).map fun data? n hdata => ?_
  cases data? with
  | none => exact .null hdata.1 hdata.2
  | some data =>
    obtain ⟨hu, bytes, hbytes, hn⟩ := hdata
    refine .value ?_ (fun h => ?_) ⟨bytes, ?_, hn⟩
    · rw [hkind]
      cases unicode <;> rfl
    · refine hu ?_
      cases unicode with
      | true => rfl
      | false => simp [hkind] at h
    · change (if d.kind = .ascii then d.writeAscii data else d.writeVector data) = _
      rw [if_neg, hbytes]
      rw [hkind]
      cases unicode <;> simp

/-- A value that was read can be written again, in no more bytes. -/
theorem readValue_costs (d : Decl) : d.readValue.Costs d.Resends := by
  unfold readValue
  cases hkind : d.kind with
  | int =>
    refine d.nullableInt_costs.map fun v? n hv => ?_
    cases v? with
    | none => exact .null hv.1 hv.2
    | some v =>
      obtain ⟨s, hs, hn⟩ := hv
      refine .value (by rw [hkind]; rfl) (by simp [IsText, hkind]) ⟨writeInt s, ?_, hn⟩
      change (d.shiftInt v >>= fun s => .ok (writeInt s)) = _
      rw [hs]
      rfl
  | uint =>
    refine d.nullableUInt_costs.map fun v? n hv => ?_
    cases v? with
    | none => exact .null hv.1 hv.2
    | some v =>
      obtain ⟨s, hs, hn⟩ := hv
      refine .value (by rw [hkind]; rfl) (by simp [IsText, hkind]) ⟨writeUInt s, ?_, hn⟩
      change (d.shiftUInt v >>= fun s => .ok (writeUInt s)) = _
      rw [hs]
      rfl
  | decimal =>
    refine d.nullablePair_costs.bind fun v? n hv => ?_
    cases v? with
    | none => exact .pure (.null hv.1 hv.2)
    | some v =>
      obtain ⟨exponent, mantissa⟩ := v
      obtain ⟨s, hs, hn⟩ := hv
      refine .map_ofExcept fun v hv => ?_
      unfold checkedDecimal at hv
      dsimp only at hv
      split at hv
      · next hexponent =>
        obtain rfl := Except.ok.inj hv
        refine .value (by rw [hkind]; rfl) (by simp [IsText, hkind])
          ⟨writeInt s ++ writeInt mantissa, ?_, hn⟩
        change (if Decimal.hasValidExponent ⟨mantissa, exponent⟩ then
          (d.shiftInt exponent >>= fun s => .ok (writeInt s ++ writeInt mantissa)) else _) = _
        rw [if_pos hexponent, hs]
        rfl
      · cases hv
  | ascii => exact readAscii_costs hkind
  | unicode => exact readData_costs true hkind
  | bytes => exact readData_costs false hkind
  | sequence => exact .fail _

/-- What is written again is read back. -/
theorem Resends.takes {v? : Option Value} {n : Nat} (h : d.Resends v? n) (hk : d.kind ≠ .sequence)
    {e : Entry} (he : e.value? = v?) :
    ∃ bytes, d.writeValue e = .ok bytes ∧ bytes.length ≤ n ∧ d.readValue.Takes bytes v? := by
  obtain ⟨htext, bytes, hbytes, hn⟩ := h.writes e he
  refine ⟨bytes, hbytes, hn, he ▸ writeValue_takes hbytes hk (fun ha => ?_) (fun ha => ?_) htext⟩
  · exact h.admits.kind _ (he ▸ Entry.value?_of_isAssigned ha)
  · exact h.admits.optional (he ▸ Entry.value?_of_not_isAssigned ha)

end Decl

end MarketFeed
