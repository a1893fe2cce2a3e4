import MarketFeed.Proofs.Field.Cost

/-!
# Fields can be passed on

Whatever bytes a field was read from, a sender that agrees with the receiver can send its value on,
in no more bytes and without a presence bit that was not set before. To the same receiver these
bytes would have done the same: `Field.Agrees.relays`. A value that was inferred is inferred again,
so that it does not matter that some of them, like the largest integer of an optional field, could
not be sent in full.
-/

namespace MarketFeed

namespace Value

theorem hasKind_int (v w : Int64) (kind : Kind) : (int v).hasKind kind = (int w).hasKind kind := by
  cases kind <;> rfl

theorem hasKind_uint (v w : UInt64) (kind : Kind) :
    (uint v).hasKind kind = (uint w).hasKind kind := by
  cases kind <;> rfl

theorem hasKind_of_successor {v w : Value} {kind : Kind} (h : v.successor = some w)
    (hv : v.hasKind kind = true) : w.hasKind kind = true := by
  cases v with
  | int v =>
    rw [successor, Option.map_eq_some_iff] at h
    obtain ⟨n, -, rfl⟩ := h
    rwa [hasKind_int n v]
  | uint v =>
    rw [successor, Option.map_eq_some_iff] at h
    obtain ⟨n, -, rfl⟩ := h
    rwa [hasKind_uint n v]
  | decimal v => cases h
  | bytes v => cases h

end Value

namespace Field

variable {f r r' : Field}

/-- What the field remembers, and the value that its declaration gives it, are of its kind. -/
def Typed (f : Field) : Prop :=
  f.decl.kind ≠ .sequence → f.previous.value.hasKind f.decl.kind = true ∧
    ∀ v, f.decl.init = some v → v.hasKind f.decl.kind = true

theorem Agrees.typed_iff (h : f.Agrees r) : f.Typed ↔ r.Typed := by
  rw [Typed, Typed, h.decl, h.previous]

theorem Typed.remembering (ht : f.Typed)
    (hv : ∀ v, f.current.value? = some v → v.hasKind f.decl.kind = true) :
    f.remembering.Typed := by
  have kept : f.current.isAssigned = true → ({ f with previous := f.current } : Field).Typed :=
    fun ha hk => ⟨hv _ (Entry.value?_of_isAssigned ha), (ht hk).2⟩
  unfold Field.remembering
  cases f.decl.op with
  | none => exact ht
  | constant => exact ht
  | delta =>
    dsimp only
    split
    · exact kept ‹_›
    · exact ht
  | copy =>
    dsimp only
    split
    · exact kept ‹_›
    · exact ht
  | increment =>
    dsimp only
    split
    · exact kept ‹_›
    · exact ht

/-- What both sides remember of a value that suits them is of its kind again. -/
theorem Agrees.typed_after (h : f.Agrees r) (ht : r.Typed) (hv : r.decl.Admits f.current.value?)
    (hafter : f.remembering.Agrees r') : r'.Typed :=
  hafter.typed_iff.1 ((h.typed_iff.2 ht).remembering fun v hcurrent =>
    h.decl ▸ hv.kind v hcurrent)

/-! ## What is inferred -/

/-- Where a receiver can infer a field, it is settled, or empty as if NULL had come. -/
theorem inherit_eq_ok (h : r.inherit = .ok r') :
    (∃ v, r' = r.receiveKept (some v) ∧
      (r.previous.state = .assigned ∧
          (if r.decl.op = .increment then r.previous.value.successor = some v
            else r.previous.value = v) ∨
        r.previous.state = .undefined ∧ r.decl.init = some v)) ∨
    r' = r.receiveKept none ∧ r.decl.isOptional = true ∧
      (r.previous.state = .empty ∨ r.previous.state = .undefined ∧ r.decl.init = none) := by
  unfold Field.inherit at h
  split at h
  · next hs =>
    split at h
    · next hop =>
      split at h
      · next v hv =>
        obtain rfl := Except.ok.inj h
        exact .inl ⟨v, rfl, .inl ⟨hs, by rw [if_pos hop, hv]⟩⟩
      · cases h
    · next hop =>
      obtain rfl := Except.ok.inj h
      exact .inl ⟨_, rfl, .inl ⟨hs, by rw [if_neg hop]⟩⟩
  · next hs =>
    split at h
    · cases h
    · next hmandatory =>
      obtain rfl := Except.ok.inj h
      refine .inr ⟨?_, ?_, .inl hs⟩
      · have hprevious : r.previous.emptied = r.previous := by rw [Entry.emptied, ← hs]
        rw [Field.receiveKept, hprevious]
        rfl
      · cases hp : r.decl.presence with
        | optional => simp [Decl.isOptional, hp]
        | mandatory => simp [Decl.isMandatory, hp] at hmandatory
  · next hs =>
    split at h
    · next v hv =>
      obtain rfl := Except.ok.inj h
      exact .inl ⟨v, rfl, .inr ⟨hs, hv⟩⟩
    · next hnone =>
      split at h
      · next ho =>
        obtain rfl := Except.ok.inj h
        exact .inr ⟨rfl, ho, .inr ⟨hs, hnone⟩⟩
      · cases h

/-- A sender that holds what the receiver infers leaves it out. -/
theorem Agrees.isImplied_of_inherit (h : f.Agrees r) (hr : r.inherit = .ok r')
    (hv : f.current.value? = r'.current.value?) : f.isImplied = true := by
  unfold isImplied
  rw [← h.previous, ← h.decl]
  rcases inherit_eq_ok hr with ⟨v, rfl, hcase⟩ | ⟨rfl, ho, hcase⟩
  · have hcurrent : f.current = .assigned v := Entry.eq_assigned_of_value? hv
    rw [hcurrent]
    rcases hcase with ⟨hs, hvalue⟩ | ⟨hs, hinit⟩
    · rw [hs]
      split at hvalue
      · next hop => simp [Entry.isAssigned, Entry.assigned, hop, hvalue]
      · next hop => simp [Entry.isAssigned, Entry.assigned, hop, hvalue]
    · rw [hs, hinit]
      simp [Entry.isAssigned, Entry.assigned]
  · have ha : f.current.isAssigned = false := Entry.value?_eq_none.1 hv
    rcases hcase with hs | ⟨hs, hinit⟩
    · rw [hs]
      simp [ha]
    · rw [hs, hinit]
      simp [ha, ho]

theorem Typed.admits_inherit (ht : r.Typed) (hk : r.decl.kind ≠ .sequence)
    (hr : r.inherit = .ok r') : r.decl.Admits r'.current.value? := by
  obtain ⟨hprevious, hinit⟩ := ht hk
  rcases inherit_eq_ok hr with ⟨v, rfl, hcase⟩ | ⟨rfl, ho, -⟩
  · refine .value ?_
    rcases hcase with ⟨-, hvalue⟩ | ⟨-, hv⟩
    · split at hvalue
      · exact Value.hasKind_of_successor hvalue hprevious
      · rwa [← hvalue]
    · exact hinit _ hv
  · exact .null ho

/-! ## Deltas -/

theorem addDelta_eq_ok {delta : Int64} {v : Value} (h : r.addDelta delta = .ok v) :
    (∃ base w, r.previous.value = .int base ∧ v = .int w ∧
      toInt64? (w.toInt - base.toInt) = some delta) ∨
    ∃ base w, r.previous.value = .uint base ∧ v = .uint w ∧
      toInt64? ((w.toNat : Int) - base.toNat) = some delta := by
  unfold addDelta at h
  dsimp only at h
  split at h
  · next sum hsum =>
    obtain rfl := Except.ok.inj h
    split at hsum
    · next base hbase =>
      obtain ⟨w, hw, rfl⟩ := Option.map_eq_some_iff.1 hsum
      have := toInt64?_eq_some_iff.1 hw
      exact .inl ⟨base, w, hbase, rfl, toInt64?_eq_some_iff.2 (by omega)⟩
    · next base hbase =>
      obtain ⟨w, hw, rfl⟩ := Option.map_eq_some_iff.1 hsum
      have := toUInt64?_eq_some_iff.1 hw
      exact .inr ⟨base, w, hbase, rfl, toInt64?_eq_some_iff.2 (by omega)⟩
    · cases hsum
  · cases h

theorem addDecimalDelta_eq_ok {base : Decimal} (hp : r.previous.value = .decimal base)
    {exponent mantissa : Int64} {v : Value}
    (h : r.addDecimalDelta exponent mantissa = .ok v) :
    ∃ w, v = .decimal w ∧ w.hasValidExponent = true ∧
      toInt64? (w.exponent.toInt - base.exponent.toInt) = some exponent ∧
      toInt64? (w.mantissa.toInt - base.mantissa.toInt) = some mantissa := by
  simp only [addDecimalDelta, hp, Value.asDecimal, Option.getD_some] at h
  split at h
  · next exponent' mantissa' he hm =>
    unfold checkedDecimal at h
    dsimp only at h
    split at h
    · next hvalid =>
      obtain rfl := Except.ok.inj h
      have he := toInt64?_eq_some_iff.1 he
      have hm := toInt64?_eq_some_iff.1 hm
      exact ⟨_, rfl, hvalid, toInt64?_eq_some_iff.2 (by dsimp only; omega),
        toInt64?_eq_some_iff.2 (by dsimp only; omega)⟩
    · cases h
  · cases h

theorem writeDelta_null (ha : f.current.value? = none) : f.writeDelta = .ok nullBytes := by
  simp only [writeDelta, Entry.value?_eq_none.1 ha, Bool.not_false, if_true]

theorem writeDelta_int {base v delta s : Int64} (hv : f.current = .assigned (.int v))
    (hp : f.previous.value = .int base) (hdelta : toInt64? (v.toInt - base.toInt) = some delta)
    (hs : f.decl.shiftInt delta = .ok s) : f.writeDelta = .ok (writeInt s) := by
  simp only [writeDelta, hv, hp, Entry.assigned, hdelta, Decl.sendable]
  change (f.decl.shiftInt delta >>= fun s => .ok (writeInt s)) = _
  rw [hs]
  rfl

theorem writeDelta_uint {base v : UInt64} {delta s : Int64} (hv : f.current = .assigned (.uint v))
    (hp : f.previous.value = .uint base)
    (hdelta : toInt64? ((v.toNat : Int) - base.toNat) = some delta)
    (hs : f.decl.shiftInt delta = .ok s) : f.writeDelta = .ok (writeInt s) := by
  simp only [writeDelta, hv, hp, Entry.assigned, hdelta, Decl.sendable]
  change (f.decl.shiftInt delta >>= fun s => .ok (writeInt s)) = _
  rw [hs]
  rfl

theorem writeDelta_decimal {base v : Decimal} {exponent mantissa s : Int64}
    (hv : f.current = .assigned (.decimal v)) (hp : f.previous.value = .decimal base)
    (hvalid : v.hasValidExponent = true)
    (he : toInt64? (v.exponent.toInt - base.exponent.toInt) = some exponent)
    (hm : toInt64? (v.mantissa.toInt - base.mantissa.toInt) = some mantissa)
    (hs : f.decl.shiftInt exponent = .ok s) :
    f.writeDelta = .ok (writeInt s ++ writeInt mantissa) := by
  simp only [writeDelta, hv, hp, Entry.assigned, hvalid, if_true, he, hm, Decl.sendable]
  change (f.decl.shiftInt exponent >>= fun s => .ok (writeInt s ++ writeInt mantissa)) = _
  rw [hs]
  rfl

/-- The delta to the value, or NULL, can be sent in at most so many bytes. -/
def ResendsDelta (f : Field) (v? : Option Value) (n : Nat) : Prop :=
  f.current.value? = v? →
    f.decl.Admits v? ∧ ∃ bytes, f.writeDelta = .ok bytes ∧ bytes.length ≤ n

theorem ResendsDelta.null (ho : f.decl.isOptional = true) {n : Nat} (hn : 0 < n) :
    f.ResendsDelta none n :=
  fun hv => ⟨.null ho, nullBytes, writeDelta_null hv, hn⟩

/-- A delta that was read can be sent again, in no more bytes. -/
theorem Agrees.readDelta_costs (h : f.Agrees r) (ht : r.Typed)
    (hallowed : r.decl.op.allowedOn r.decl.kind = true) (hop : r.decl.op = .delta) :
    r.readDelta.Costs f.ResendsDelta := by
  obtain ⟨hprevious, -⟩ := h.typed_iff.2 ht (by rw [← h.decl]; exact kind_ne_sequence hallowed)
  have integer {k : Option Int64 → Read (Option Value)} (hnone : k none = pure none)
      (hsome : ∀ delta, k (some delta) = do return some (← Read.ofExcept (r.addDelta delta))) :
      (Read.nullableInt f.decl.isOptional >>= k).Costs f.ResendsDelta := by
    refine f.decl.nullableInt_costs.bind fun delta? n hdelta => ?_
    cases delta? with
    | none =>
      rw [hnone]
      exact .pure (.null hdelta.1 hdelta.2)
    | some delta =>
      obtain ⟨s, hs, hn⟩ := hdelta
      rw [hsome]
      refine .map_ofExcept fun v hv hcurrent => ?_
      have hcurrent := Entry.eq_assigned_of_value? hcurrent
      rcases addDelta_eq_ok hv with ⟨base, w, hbase, rfl, hdelta⟩ | ⟨base, w, hbase, rfl, hdelta⟩
      · rw [h.previous] at hbase
        refine ⟨.value ?_, writeInt s, writeDelta_int hcurrent hbase hdelta hs, hn⟩
        rw [Value.hasKind_int w base, ← hbase]
        exact hprevious
      · rw [h.previous] at hbase
        refine ⟨.value ?_, writeInt s, writeDelta_uint hcurrent hbase hdelta hs, hn⟩
        rw [Value.hasKind_uint w base, ← hbase]
        exact hprevious
  unfold readDelta
  rw [hop, h.decl] at hallowed
  rw [h.decl]
  cases hkind : f.decl.kind <;> simp [hkind, Operator.allowedOn] at hallowed
  · exact integer rfl fun _ => rfl
  · exact integer rfl fun _ => rfl
  · refine f.decl.nullablePair_costs.bind fun delta? n hdelta => ?_
    cases delta? with
    | none => exact .pure (.null hdelta.1 hdelta.2)
    | some delta =>
      obtain ⟨exponent, mantissa⟩ := delta
      obtain ⟨s, hs, hn⟩ := hdelta
      refine .map_ofExcept fun v hv hcurrent => ?_
      have hcurrent := Entry.eq_assigned_of_value? hcurrent
      obtain ⟨base, hbase⟩ : ∃ base, f.previous.value = .decimal base := by
        cases hvalue : f.previous.value <;> simp [hvalue, hkind, Value.hasKind] at hprevious
        · exact ⟨_, rfl⟩
        · cases hprevious
      obtain ⟨w, rfl, hvalid, he, hm⟩ := addDecimalDelta_eq_ok (h.previous ▸ hbase) hv
      refine ⟨.value ?_, writeInt s ++ writeInt mantissa,
        writeDelta_decimal hcurrent hbase hvalid he hm hs, hn⟩
      rw [hkind]
      rfl

/-! ## Constants -/

theorem takeConstant_eq_ok {map : PresenceMap} (h : r.takeConstant map = .ok r') :
    r.decl.isOptional = true ∧ r.isMarked map = false ∧ r' = r.put r.current.emptied ∨
    ∃ v, r.decl.init = some v ∧ (r.decl.isOptional = true → r.isMarked map = true) ∧
      r' = r.put (.assigned v) := by
  unfold Field.takeConstant at h
  split at h
  · next hunset =>
    rw [Bool.and_eq_true, Bool.not_eq_true'] at hunset
    exact .inl ⟨hunset.1, hunset.2, (Except.ok.inj h).symm⟩
  · next hset =>
    split at h
    · next v hv =>
      exact .inr ⟨v, hv, fun ho => by simpa [ho] using hset, (Except.ok.inj h).symm⟩
    · cases h

/-! ## The whole field -/

theorem checkSendable_of_admits (hallowed : f.decl.op.allowedOn f.decl.kind = true)
    (h : f.decl.Admits f.current.value?) : f.checkSendable = .ok () := by
  unfold checkSendable
  rw [hallowed, if_neg (by simp)]
  cases ha : f.current.isAssigned with
  | true =>
    rw [h.kind _ (Entry.value?_of_isAssigned ha)]
    simp
  | false =>
    have ho := h.optional (Entry.value?_of_not_isAssigned ha)
    have hmandatory : f.decl.isMandatory = false := by
      simp only [Decl.isOptional, beq_iff_eq] at ho
      simp [Decl.isMandatory, ho]
    simp [hmandatory]

/--
The sender's `f` can pass on, in `payload` of at most `n` bytes, how the receiver's `r` has become
`r'` by a message with this presence map.
-/
structure Relays (f r r' : Field) (map : PresenceMap) (n : Nat) (payload : List UInt8) : Prop where
  sendable : f.checkSendable = .ok ()
  sends : f.payload = .ok payload
  length_le : payload.length ≤ n
  marked : f.marks = true → r.isMarked map = true
  takes : ∀ sent, r.isMarked sent = f.marks → (r.read sent).Takes payload r'
  agrees : f.remembering.Agrees r'
  typed : r'.Typed

/-- What a field may hold it can send; it remains to see which bytes these are, and what they do. -/
theorem Agrees.relays_admitted (h : f.Agrees r) (ht : r.Typed)
    (hallowed : r.decl.op.allowedOn r.decl.kind = true) (hadmits : r.decl.Admits f.current.value?)
    (hagrees : f.remembering.Agrees r') {map : PresenceMap} {n : Nat} {payload : List UInt8}
    (hpayload : f.payload = .ok payload) (hn : payload.length ≤ n)
    (hmarked : f.marks = true → r.isMarked map = true)
    (htakes : ∀ sent, r.isMarked sent = f.marks → (r.read sent).Takes payload r') :
    f.Relays r r' map n payload where
  sendable := checkSendable_of_admits (h.decl ▸ hallowed) (h.decl ▸ hadmits)
  sends := hpayload
  length_le := hn
  marked := hmarked
  takes := htakes
  agrees := hagrees
  typed := h.typed_after ht hadmits hagrees

theorem read_kept (hallowed : r.decl.op.allowedOn r.decl.kind = true)
    (hop : r.decl.op = .copy ∨ r.decl.op = .increment) (map : PresenceMap) :
    r.read map = if r.isMarked map then do return r.receiveKept (← r.decl.readValue)
      else Read.ofExcept r.inherit := by
  rw [Field.read, if_pos hallowed]
  rcases hop with hop | hop <;> rw [hop]

/-- Whether the value was sent or inferred, it can be left out where it is implied now. -/
theorem Agrees.relays_kept (h : f.Agrees r) (ht : r.Typed)
    (hallowed : r.decl.op.allowedOn r.decl.kind = true)
    (hop : r.decl.op = .copy ∨ r.decl.op = .increment) {map : PresenceMap} {n : Nat}
    (hadmits : r.decl.Admits f.current.value?)
    (hsend : f.isImplied = false →
      r.isMarked map = true ∧ r.decl.Resends f.current.value? n) :
    ∃ payload, f.Relays r (r.receiveKept f.current.value?) map n payload := by
  have hagrees := h.receiveKept (h.decl ▸ hop)
  have hmarks := marks_of_kept (h.decl ▸ hop)
  have hpayload := payload_of_kept (h.decl ▸ hop)
  cases himplied : f.isImplied with
  | true =>
    rw [himplied, Bool.not_true] at hmarks
    rw [hmarks, if_neg (by simp)] at hpayload
    refine ⟨[], h.relays_admitted ht hallowed hadmits hagrees hpayload (Nat.zero_le n)
      (by simp [hmarks]) fun sent hsent => ?_⟩
    rw [read_kept hallowed hop, hsent, hmarks, if_neg (by simp),
      h.inherit himplied fun ha => h.decl ▸ hadmits.optional (Entry.value?_of_not_isAssigned ha)]
    exact .pure _
  | false =>
    rw [himplied, Bool.not_false] at hmarks
    obtain ⟨hmarked, hresends⟩ := hsend himplied
    obtain ⟨bytes, hbytes, hn, htakes⟩ := hresends.takes (kind_ne_sequence hallowed) rfl
    rw [hmarks, if_pos rfl, ← h.decl, hbytes] at hpayload
    refine ⟨bytes, h.relays_admitted ht hallowed hadmits hagrees hpayload hn (fun _ => hmarked)
      fun sent hsent => ?_⟩
    rw [read_kept hallowed hop, hsent, hmarks, if_pos rfl]
    exact htakes.map _

theorem Agrees.read_kept_costs (h : f.Agrees r) (ht : r.Typed)
    (hallowed : r.decl.op.allowedOn r.decl.kind = true)
    (hop : r.decl.op = .copy ∨ r.decl.op = .increment) (map : PresenceMap) :
    (r.read map).Costs fun r' n => f.current.value? = r'.current.value? →
      ∃ payload, f.Relays r r' map n payload := by
  rw [read_kept hallowed hop]
  refine .ite (fun hmarked => ?_) fun _ => .ofExcept fun r' hr' hcurrent => ?_
  · refine r.decl.readValue_costs.map fun v? n hresends hcurrent => ?_
    rw [Entry.value?_of_holds (holds_receiveKept r v?)] at hcurrent
    subst hcurrent
    exact h.relays_kept ht hallowed hop hresends.admits fun _ => ⟨hmarked, hresends⟩
  · have hadmits := ht.admits_inherit (kind_ne_sequence hallowed) hr'
    have himplied := h.isImplied_of_inherit hr' hcurrent
    rw [← hcurrent] at hadmits
    have hinherit := h.inherit himplied fun ha =>
      h.decl ▸ hadmits.optional (Entry.value?_of_not_isAssigned ha)
    rw [hr'] at hinherit
    rw [Except.ok.inj hinherit]
    exact h.relays_kept ht hallowed hop hadmits fun hnot => by simp [himplied] at hnot

theorem Agrees.relays_constant (h : f.Agrees r) (ht : r.Typed)
    (hallowed : r.decl.op.allowedOn r.decl.kind = true) (hop : r.decl.op = .constant)
    {map : PresenceMap} (hr : r.takeConstant map = .ok r')
    (hcurrent : f.current.value? = r'.current.value?) : f.Relays r r' map 0 [] := by
  have hop' := h.decl ▸ hop
  have hread (map : PresenceMap) : r.read map = Read.ofExcept (r.takeConstant map) := by
    rw [Field.read, if_pos hallowed, hop]
  have hmarks : f.marks = (r.decl.isOptional && f.current.isAssigned) := by
    simp only [marks, hop', h.decl]
  have hpayload : f.payload = .ok [] := by simp only [payload, hop']
  have hagrees (e : Entry) : f.remembering.Agrees (r.put e) := by
    simp only [remembering, hop']
    exact ⟨h.decl, h.bit, h.previous⟩
  rcases takeConstant_eq_ok hr with ⟨ho, hunset, rfl⟩ | ⟨v, hv, hset, rfl⟩
  · have hnone : f.current.value? = none := hcurrent
    have hadmits : r.decl.Admits f.current.value? := by
      rw [hnone]
      exact .null ho
    rw [Entry.value?_eq_none.1 hnone, Bool.and_false] at hmarks
    refine h.relays_admitted ht hallowed hadmits (hagrees _) hpayload (Nat.le_refl 0)
      (by simp [hmarks]) fun sent hsent => ?_
    rw [hread, Field.takeConstant, ho, hsent, hmarks]
    exact .pure _
  · have hsome : f.current.value? = some v := hcurrent
    have hadmits : r.decl.Admits f.current.value? := by
      rw [hsome]
      exact .value ((ht (kind_ne_sequence hallowed)).2 v hv)
    rw [Entry.eq_assigned_of_value? hsome] at hmarks
    refine h.relays_admitted ht hallowed hadmits (hagrees _) hpayload (Nat.le_refl 0)
      (fun hm => hset ?_) fun sent hsent => ?_
    · rw [hmarks, Bool.and_eq_true] at hm
      exact hm.1
    · rw [hread, Field.takeConstant, hsent, hmarks, hv]
      cases r.decl.isOptional <;> exact .pure _

/-- Whatever a field was read from, one that agrees and holds the same can pass it on. -/
theorem Agrees.relays (h : f.Agrees r) (ht : r.Typed) (map : PresenceMap) :
    (r.read map).Costs fun r' n => f.current.value? = r'.current.value? →
      ∃ payload, f.Relays r r' map n payload := by
  by_cases hallowed : r.decl.op.allowedOn r.decl.kind = true
  swap
  · rw [Field.read, if_neg hallowed]
    exact .fail _
  have hkind := kind_ne_sequence hallowed
  cases hop : r.decl.op with
  | copy => exact h.read_kept_costs ht hallowed (.inl hop) map
  | increment => exact h.read_kept_costs ht hallowed (.inr hop) map
  | none =>
    have hread (map : PresenceMap) : r.read map = do return r.receive (← r.decl.readValue) := by
      rw [Field.read, if_pos hallowed, hop]
    have hop' := h.decl ▸ hop
    rw [hread]
    refine r.decl.readValue_costs.map fun v? n hresends hcurrent => ?_
    rw [Entry.value?_of_holds (holds_receive r v?)] at hcurrent
    subst hcurrent
    obtain ⟨bytes, hbytes, hn, htakes⟩ := hresends.takes hkind rfl
    refine ⟨bytes, h.relays_admitted ht hallowed hresends.admits (h.receive hop' _) ?_ hn
      (by simp [marks, hop']) fun sent _ => ?_⟩
    · rw [h.decl] at hbytes
      simpa only [payload, hop'] using hbytes
    · rw [hread]
      exact htakes.map _
  | delta =>
    have hread (map : PresenceMap) : r.read map = do return r.receiveDelta (← r.readDelta) := by
      rw [Field.read, if_pos hallowed, hop]
    have hop' := h.decl ▸ hop
    rw [hread]
    refine (h.readDelta_costs ht hallowed hop).map fun v? n hresends hcurrent => ?_
    rw [Entry.value?_of_holds (holds_receiveDelta r v?)] at hcurrent
    obtain ⟨hadmits, bytes, hbytes, hn⟩ := hresends hcurrent
    subst hcurrent
    refine ⟨bytes, h.relays_admitted ht hallowed (h.decl ▸ hadmits) (h.receiveDelta hop') ?_ hn
      (by simp [marks, hop']) fun sent _ => ?_⟩
    · simpa only [payload, hop'] using hbytes
    · rw [hread]
      refine (h.readDelta_takes hbytes (h.decl ▸ hallowed) hop' (fun ha => ?_) fun ha => ?_).map _
      · exact hadmits.kind _ (Entry.value?_of_isAssigned ha)
      · exact hadmits.optional (Entry.value?_of_not_isAssigned ha)
  | constant =>
    have hread (map : PresenceMap) : r.read map = Read.ofExcept (r.takeConstant map) := by
      rw [Field.read, if_pos hallowed, hop]
    rw [hread]
    refine .ofExcept fun r' hr' hcurrent => ?_
    exact ⟨[], h.relays_constant ht hallowed hop hr' hcurrent⟩

/-- A map that has no bits but those of the message passed on has none either with the field's. -/
theorem Relays.write {map : PresenceMap} {n : Nat} {payload : List UInt8}
    (h : f.Relays r r' map n payload) (hbit : r.bit = f.bit) {into : PresenceMap}
    (hwithin : into.Within map) :
    ∃ marked, f.write into = .ok ⟨marked, payload, f.remembering⟩ ∧ marked.Within map := by
  obtain ⟨marked, hmark, hmarked⟩ : ∃ marked, f.mark into = .ok marked ∧ marked.Within map := by
    unfold mark
    split
    · next hm =>
      have hset := h.marked hm
      rw [isMarked, hbit, Option.any_eq_true] at hset
      obtain ⟨bit, hbit, hset⟩ := hset
      obtain ⟨marked, hmarked⟩ := PresenceMap.exists_set? (m := into) hset
      rw [hbit, Option.bind_some, hmarked]
      refine ⟨marked, rfl, fun i hi => ?_⟩
      rw [PresenceMap.isSet_set? hmarked, Bool.or_eq_true, beq_iff_eq] at hi
      rcases hi with hi | rfl
      · exact hwithin i hi
      · exact hset
    · exact ⟨into, rfl, hwithin⟩
  refine ⟨marked, ?_, hmarked⟩
  rw [Field.write, h.sendable, hmark, h.sends]
  rfl

/-- A field that holds what was read from some bytes is written, and takes the place of these. -/
theorem Agrees.relay_read (h : f.Agrees r) (ht : r.Typed) {map : PresenceMap}
    {bytes rest : List UInt8} (hread : r.read map bytes = .done r' rest)
    (hv : f.current.value? = r'.current.value?) {into : PresenceMap} (hwithin : into.Within map) :
    ∃ marked payload, f.write into = .ok ⟨marked, payload, f.remembering⟩ ∧
      payload.length + rest.length ≤ bytes.length ∧ marked.Within map ∧
      f.remembering.Agrees r' ∧ r'.Typed ∧
      ∀ sent, f.isMarked sent = f.marks → (r.read sent).Takes payload r' := by
  obtain ⟨n, hn, hrelay⟩ := (h.relays ht map).of_done hread
  obtain ⟨payload, hrelays⟩ := hrelay hv
  obtain ⟨marked, hwrite, hwithin'⟩ := hrelays.write h.bit hwithin
  have hlength := hrelays.length_le
  refine ⟨marked, payload, hwrite, by omega, hwithin', hrelays.agrees, hrelays.typed,
    fun sent hsent => hrelays.takes sent ?_⟩
  rw [← hsent, isMarked, isMarked, h.bit]

theorem Typed.kind_of_read (ht : r.Typed) {map : PresenceMap} {bytes rest : List UInt8}
    (h : r.read map bytes = .done r' rest) :
    ∀ v, r'.current.value? = some v → v.hasKind r.decl.kind = true := by
  intro v hv
  obtain ⟨n, -, hrelay⟩ := (((Agrees.refl r).put r'.current).relays ht map).of_done h
  obtain ⟨payload, hrelays⟩ := hrelay rfl
  have hkind := (checkSendable_eq_ok hrelays.sendable).2.1
  rw [Field.put, Entry.eq_assigned_of_value? hv] at hkind
  exact hkind rfl

end Field

end MarketFeed
