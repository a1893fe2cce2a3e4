import MarketFeed.Proofs.Group.Contract

/-!
# Counting rows on both sides

A sender writes as many rows as its length says, a receiver reads as many as the length that it has
read. The two are the same number but for a constant length: that one is never sent, so that the
receiver has the declared number, however many rows were written.
-/

namespace MarketFeed.Group

variable {g r : Group}

/-! ## The length -/

/-- Both sides mean the same number unless a constant that arrives is another one. -/
theorem announced_eq_iff (hkind : g.length.decl.kind = .uint) (hv : g.length.decl.Valid)
    (hc : g.length.decl.HasConstant) :
    g.announced = g.transmittedLength ↔
      (g.length.decl.op = .constant →
        g.length.decl.isOptional = false ∨ g.length.current.isAssigned = true →
        g.length.decl.init = some (.uint g.transmittedLength)) := by
  by_cases hop : g.length.decl.op = .constant
  · obtain ⟨v, hinit⟩ := Option.isSome_iff_exists.1 (hc hv.kind_ne_sequence hop)
    obtain ⟨n, rfl⟩ : ∃ n, v = .uint n := by
      have hvalue := hv.init v hinit
      rw [hkind] at hvalue
      cases v <;> simp [Value.hasKind, Kind.isByteLike] at hvalue
      exact ⟨_, rfl⟩
    simp only [announced, Decl.delivered, hinit, hop]
    cases ho : g.length.decl.isOptional with
    | false => simp [Value.asUInt]
    | true =>
      cases ha : g.length.current.isAssigned with
      | true => simp [Value.asUInt]
      | false => simp [transmittedLength, Entry.asUInt, Entry.value?_of_not_isAssigned ha]
  · simp [announced_of_not_constant hop, hop]

/-! ## The rows -/

theorem count_read {map : PresenceMap} {bytes rest : List UInt8} {length : Field}
    (h : g.length.read map bytes = .done length rest)
    (hmax : ({ g with length } : Group).transmittedLength.toNat ≤ maxRows) :
    (g.read map .length bytes).state.count =
      ({ g with length } : Group).transmittedLength.toNat := by
  rw [read_length, Progress.afterToken, h]
  simp only [readBody, if_neg (Nat.not_lt.2 hmax), count_readFrom]
  exact length_rows_resize _ _

/-! ## From the one side to the other -/

/--
What becomes of the rows of `g`, written with its length as these bytes into the presence map `map`,
where `r` reads them under the map `sent`.
-/
structure RowsArrive (g r : Group) (map sent : PresenceMap) (bytes : List UInt8) : Prop where
  /-- The bytes are those of the length and of just the rows that it stands for. -/
  written : g.outgoing.length = g.transmittedLength.toNat ∧ ∃ w back,
    g.length.write map = .ok w ∧
    (writeRows g.rowsHaveMap g.dictionary g.outgoing).1 = .ok back ∧ bytes = w.bytes ++ back
  /-- The receiver makes room for the number of rows that the length has for it. -/
  count (rest : List UInt8) : g.announced.toNat ≤ maxRows →
    (r.read sent .length (bytes ++ rest)).state.count = g.announced.toNat
  refused (rest : List UInt8) : maxRows < g.announced.toNat →
    (r.read sent .length (bytes ++ rest)).ending =
      .garbled (.sequenceTooLong g.announced maxRows)
  /-- That is the number of rows written, unless the length is another constant. -/
  agree : g.announced = g.transmittedLength ↔
    (g.length.decl.op = .constant →
      g.length.decl.isOptional = false ∨ g.length.current.isAssigned = true →
      g.length.decl.init = some (.uint g.transmittedLength))
  /-- Then the rows are read one for one, and the read ends behind the last one. -/
  completes : g.announced = g.transmittedLength → (∀ row ∈ g.outgoing, Row.IsText g.decls row) →
    ∃ r', Completes (r.read sent .length) bytes r' ∧
      List.Forall₂ (Row.Conveys g.decls) g.outgoing r'.rows

theorem Agrees.rowsArrive (h : g.Agrees r) (hd : g.Declares) (hv : g.length.decl.Valid)
    (hg : g.Rectangular) (hr : r.Rectangular) {map : PresenceMap}
    (hclear : g.length.isMarked map = false) {map' : PresenceMap} {bytes : List UInt8} {g' : Group}
    (hw : g.write map = (.ok (map', bytes), g')) {sent : PresenceMap}
    (hsent : r.length.isMarked sent = g.length.isMarked map') :
    g.RowsArrive r map sent bytes := by
  obtain ⟨hlen, hmax, w, back, dictionary, hlength, hback, rfl, rfl, -⟩ := write_outgoing hw
  rw [Field.isMarked_write hlength hclear] at hsent
  obtain ⟨length, htakes, -, hconveys⟩ :=
    h.length.read_takes hd.constant (isText_of_uint hd.kind _) hlength hsent
  have hnumber := transmittedLength_received hconveys r
  have hread (rest : List UInt8) :
      r.length.read sent (w.bytes ++ back ++ rest) = .done length (back ++ rest) := by
    rw [List.append_assoc]
    exact htakes _
  refine ⟨⟨hlen, w, back, hlength, congrArg Prod.fst hback, rfl⟩, fun rest hmax => ?_,
    fun rest hmax => ?_, announced_eq_iff hd.kind hv hd.constant, fun hsame ht => ?_⟩
  · rw [← hnumber] at hmax ⊢
    exact count_read (hread rest) hmax
  · rw [← hnumber] at hmax ⊢
    simp only [read_length, Progress.afterToken, hread rest, readBody_refused hmax]
  · -- A group that has just the rows to be written is written as the same bytes.
    let s : Group := { g with rows := g.outgoing, spare := [] }
    have hcounted : s.Counted := hlen.symm
    have hrect : s.Rectangular := fun row hrow => by
      simp only [s, List.append_nil] at hrow
      exact hg row (List.mem_of_mem_take hrow)
    have hsendable : s.Sendable := ⟨fun _ => hsame, ht⟩
    have hagree : s.Agrees r := ⟨h.head, h.length, h.dictionary⟩
    have hdeclares : s.Declares := ⟨hd.kind, hd.constant, hd.dictionary⟩
    have hmarked : s.length.isMarked sent = s.length.marks := by
      rw [← hsent, Field.isMarked, Field.isMarked, h.length.bit]
    obtain ⟨r', hcompletes, -, -, hconveys⟩ := hagree.read_completes hdeclares hrect hr hcounted
      hsendable (write_eq hcounted hmax hlength hback) hmarked
    exact ⟨r', hcompletes, hconveys.rows⟩

end MarketFeed.Group
