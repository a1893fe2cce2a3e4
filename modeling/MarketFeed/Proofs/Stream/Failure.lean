import MarketFeed.Proofs.Stream.RoundTrip

/-!
# Messages that cannot be encoded

A message that cannot be encoded sends nothing and leaves the encoder as it was. But its fields are
written one after another, and each that was written before the one that failed remembers what it
would have sent. The receiver knows nothing of that: the two sides agree as before only where all of
these fields are settled, that is, remember after the write just what they did before it.
-/

namespace MarketFeed

/-! ## What gets written -/

/-- Writing the field leaves what it remembers as it was. -/
def Field.IsSettled (f : Field) : Prop := f.remembering.previous = f.previous

instance (f : Field) : Decidable f.IsSettled :=
  inferInstanceAs (Decidable (f.remembering.previous = f.previous))

theorem Message.Agrees.refl (m : Message) : m.Agrees m := by
  refine ⟨rfl, rfl, List.forall₂_same.2 fun i _ => ?_⟩
  cases i with
  | scalar f => exact Field.Agrees.refl f
  | group g => exact ⟨.refl _, .refl _, List.forall₂_same.2 fun f _ => .refl f⟩

namespace Group

/-- The fields of a row that get written, each with the row's entry: those before the one that
fails, if one does. -/
def writtenCells : List Field → Row → PresenceMap → List Field
  | f :: fields, entry :: row, map =>
    match (f.put entry).write map with
    | .error _ => []
    | .ok w => f.put entry :: writtenCells fields row w.map
  | _, _, _ => []

def writtenRows : List Field → List Row → List Field
  | _, [] => []
  | fields, row :: rows =>
    writtenCells fields row .empty ++
      match writeCells fields row .empty with
      | (.error _, _) => []
      | (.ok _, fields) => writtenRows fields rows

def written (g : Group) (map : PresenceMap) : List Field :=
  let n := g.transmittedLength
  let rows := g.rows ++ g.spare
  if maxRows < n.toNat ∨ rows.length < n.toNat then []
  else
    match g.length.write map with
    | .error _ => []
    | .ok _ => g.length :: writtenRows g.dictionary (rows.take n.toNat)

end Group

namespace Item

def written : Item → PresenceMap → List Field
  | scalar f, map =>
    match f.write map with
    | .error _ => []
    | .ok _ => [f]
  | group g, map => g.written map

def writtenAll : List Item → PresenceMap → List Field
  | [], _ => []
  | i :: items, map =>
    i.written map ++
      match i.write map with
      | (.error _, _) => []
      | (.ok (map, _), _) => writtenAll items map

end Item

/-- The fields that an attempt to encode the message writes, row fields with their row's entry. -/
def Encoder.written (enc : Encoder) (m : Message) : List Field :=
  Item.writtenAll m.items (enc.start m)

/-! ## Settled fields keep the agreement -/

namespace Field

variable {f r : Field}

theorem Agrees.write (h : f.Agrees r) {map : PresenceMap} {w : Written} (hw : f.write map = .ok w)
    (hs : f.IsSettled) : w.field.Agrees r := by
  have hframe := frame_write hw
  obtain ⟨-, -, -, hfield⟩ := write_eq_ok hw
  refine ⟨?_, ?_, ?_⟩
  · rw [h.decl]
    exact (congrArg Prod.fst hframe).symm
  · rw [h.bit]
    exact (congrArg Prod.snd hframe).symm
  · rw [h.previous, hfield]
    exact hs.symm

end Field

namespace Group

theorem agrees_writeCells {fields rfields : List Field}
    (h : List.Forall₂ Field.Agrees fields rfields) {row : Row} {map : PresenceMap}
    (hs : ∀ f ∈ writtenCells fields row map, f.IsSettled) :
    List.Forall₂ Field.Agrees (writeCells fields row map).2 rfields := by
  induction h generalizing row map with
  | nil => exact .nil
  | @cons f r fields rfields hfr h ih =>
    cases row with
    | nil => exact .cons hfr h
    | cons entry row =>
      by_cases hkind : f.decl.kind = .sequence
      · rw [writeCells, if_pos hkind]
        exact .cons hfr h
      cases hw : (f.put entry).write map with
      | error e =>
        simp only [writeCells, if_neg hkind, hw]
        exact .cons (hfr.put entry) h
      | ok w =>
        simp only [writtenCells, hw, List.forall_mem_cons] at hs
        have htail := ih hs.2
        have hhead := (hfr.put entry).write hw hs.1
        simp only [writeCells, if_neg hkind, hw]
        split
        all_goals
          next hcells =>
          rw [hcells] at htail
          exact .cons hhead htail

theorem agrees_writeRows (withMap : Bool) {fields rfields : List Field}
    (h : List.Forall₂ Field.Agrees fields rfields) {rows : List Row}
    (hs : ∀ f ∈ writtenRows fields rows, f.IsSettled) :
    List.Forall₂ Field.Agrees (writeRows withMap fields rows).2 rfields := by
  induction rows generalizing fields with
  | nil => exact h
  | cons row rows ih =>
    simp only [writtenRows, List.forall_mem_append] at hs
    have hrow := agrees_writeCells h hs.1
    have hrest := hs.2
    simp only [writeRows]
    split
    · next hcells => rwa [hcells] at hrow
    · next map front middle hcells =>
      rw [hcells] at hrow hrest
      have := ih hrow hrest
      split
      all_goals
        next htail =>
        rwa [htail] at this

variable {g r : Group}

theorem Agrees.write (h : g.Agrees r) {map : PresenceMap}
    (hs : ∀ f ∈ g.written map, f.IsSettled) : (g.write map).2.Agrees r := by
  simp only [written] at hs
  simp only [Group.write]
  split
  · exact h
  · next hfits =>
    rw [if_neg hfits] at hs
    split
    · exact h
    · next w hw =>
      simp only [hw, List.forall_mem_cons] at hs
      have hrows := agrees_writeRows (Group.rowsHaveMap { g with length := w.field })
        h.dictionary hs.2
      have hlength := h.length.write hw hs.1
      split
      all_goals
        next htail =>
        rw [htail] at hrows
        exact ⟨h.head, hlength, hrows⟩

end Group

namespace Item

variable {i r : Item}

theorem Agrees.write (h : i.Agrees r) {map : PresenceMap}
    (hs : ∀ f ∈ i.written map, f.IsSettled) : (i.write map).2.Agrees r := by
  cases i with
  | scalar f =>
    cases r with
    | group r => exact h.elim
    | scalar r =>
      simp only [written] at hs
      simp only [Item.write]
      split
      · next w hw =>
        rw [hw] at hs
        exact Field.Agrees.write h hw (hs f (by simp))
      · exact h
  | group g =>
    cases r with
    | scalar r => exact h.elim
    | group r => exact Group.Agrees.write h hs

theorem agrees_writeAll {items ritems : List Item} (h : List.Forall₂ Agrees items ritems)
    {map : PresenceMap} (hs : ∀ f ∈ writtenAll items map, f.IsSettled) :
    List.Forall₂ Agrees (writeAll items map).2 ritems := by
  induction h generalizing map with
  | nil => exact .nil
  | @cons i r items ritems hir h ih =>
    simp only [writtenAll, List.forall_mem_append] at hs
    have hhead := hir.write hs.1
    have hrest := hs.2
    simp only [writeAll]
    split
    · next hi =>
      rw [hi] at hhead
      exact .cons hhead h
    · next map' bytes i' hi =>
      rw [hi] at hhead hrest
      have htail := ih hrest
      split
      all_goals
        next hitems =>
        rw [hitems] at htail
        exact .cons hhead htail

end Item

/-! ## Failed encodes -/

/-- Items are written in order up to the one that fails; those behind it are not touched. -/
theorem Item.writeAll_eq_error {items items' : List Item} {map : PresenceMap} {e : EncodeError}
    (h : writeAll items map = (.error e, items')) :
    ∃ front i back map' bytes front' i', items = front ++ i :: back ∧
      writeAll front map = (.ok (map', bytes), front') ∧ i.write map' = (.error e, i') ∧
      items' = front' ++ i' :: back := by
  induction items generalizing map items' with
  | nil => cases h
  | cons i items ih =>
    simp only [writeAll] at h
    split at h
    · next e' i' hi =>
      simp only [Prod.mk.injEq, Except.error.injEq] at h
      obtain ⟨rfl, rfl⟩ := h
      exact ⟨[], i, items, map, [], [], i', rfl, rfl, hi, rfl⟩
    · next middle bytes i' hi =>
      split at h
      · next e' items'' htail =>
        simp only [Prod.mk.injEq, Except.error.injEq] at h
        obtain ⟨rfl, rfl⟩ := h
        obtain ⟨front, j, back, map', rest, front', j', rfl, hfront, hj, rfl⟩ := ih htail
        refine ⟨i :: front, j, back, map', bytes ++ rest, i' :: front', j', rfl, ?_, hj, rfl⟩
        simp only [writeAll, hi, hfront]
      · cases h

namespace Encoder

variable {enc : Encoder} {m : Message} {e : EncodeError}

theorem encode_eq_error (h : (enc.encode m).result = .error e) :
    m.write (enc.start m) = (.error e, (enc.encode m).message) ∧ (enc.encode m).encoder = enc := by
  rw [encode_eq] at h ⊢
  rcases hw : m.write (enc.start m) with ⟨written, m'⟩
  rw [hw] at h
  cases written with
  | error e' =>
    obtain rfl := Except.error.inj h
    exact ⟨rfl, rfl⟩
  | ok written => cases h

/-- A message whose written fields are settled agrees with just what it agreed with before. -/
theorem agrees_encode_error (h : (enc.encode m).result = .error e)
    (hs : ∀ f ∈ enc.written m, f.IsSettled) {r : Message} (hr : m.Agrees r) :
    (enc.encode m).message.Agrees r := by
  have hmessage : (m.write (enc.start m)).2 = (enc.encode m).message := by rw [(encode_eq_error h).1]
  rw [← hmessage]
  exact ⟨hr.id, hr.resets, Item.agrees_writeAll hr.items hs⟩

theorem sound_encode_error (h : (enc.encode m).result = .error e) (hm : m.Sound) :
    (enc.encode m).message.Sound := by
  have hsound := hm.write (enc.start m)
  rwa [(encode_eq_error h).1] at hsound

end Encoder

namespace Decoder

variable {enc : Encoder} {ms rs : Messages} {d : Decoder} {m r : Message} {e : EncodeError}

/-- A failed encode of settled fields is nothing that the receiver had to learn of. -/
theorem InStep.encode_error (h : InStep enc ms d rs) {slot : Nat} (hr : rs[slot]? = some r)
    (hm : m.Sound) (hagree : m.Agrees r) (he : (enc.encode m).result = .error e)
    (hs : ∀ f ∈ enc.written m, f.IsSettled) :
    InStep enc (ms.set slot (enc.encode m).message) d rs := by
  refine ⟨fun m' hm' => ?_, h.rectangular, ?_, h.nodup, h.idle, h.last⟩
  · rcases List.mem_or_eq_of_mem_set hm' with hm' | rfl
    · exact h.sound m' hm'
    · exact Encoder.sound_encode_error he hm
  · have := forall₂_set h.agrees (Encoder.agrees_encode_error he hs hagree) slot
    obtain ⟨hlt, rfl⟩ := List.getElem?_eq_some_iff.1 hr
    rwa [List.set_getElem_self] at this

/--
A failed encode sends nothing and leaves the encoder alone, and the message as its items before the
failing one were written. Where all that was written is settled, the dictionaries are as before, and
a receiver in step stays so.
-/
theorem encode_failure (he : (enc.encode m).result = .error e) :
    (enc.encode m).encoder = enc ∧
      (∃ front i back map bytes front' i', m.items = front ++ i :: back ∧
        Item.writeAll front (enc.start m) = (.ok (map, bytes), front') ∧
        i.write map = (.error e, i') ∧
        (enc.encode m).message = { m with items := front' ++ i' :: back }) ∧
      ((∀ f ∈ enc.written m, f.IsSettled) →
        (enc.encode m).message.Agrees m ∧
          ∀ ms d rs slot r, InStep enc ms d rs → rs[slot]? = some r → m.Sound → m.Agrees r →
            InStep (enc.encode m).encoder (ms.set slot (enc.encode m).message) d rs) := by
  obtain ⟨hwrite, hencoder⟩ := Encoder.encode_eq_error he
  refine ⟨hencoder, ?_, fun hs => ⟨Encoder.agrees_encode_error he hs (.refl m), ?_⟩⟩
  · simp only [Message.write, Prod.mk.injEq] at hwrite
    obtain ⟨hitems, hmessage⟩ := hwrite
    obtain ⟨front, i, back, map, bytes, front', i', hm, hfront, hi, heq⟩ :=
      Item.writeAll_eq_error (Prod.ext hitems rfl)
    refine ⟨front, i, back, map, bytes, front', i', hm, hfront, hi, hmessage.symm.trans ?_⟩
    exact congrArg (fun items => ({ m with items } : Message)) heq
  · intro ms d rs slot r h hr hm hagree
    rw [hencoder]
    exact h.encode_error hr hm hagree he hs

/-- A quote of one row, which may lack its size. -/
def quote (n : UInt64) (size : Entry) : List Filling := [
  .entry "MsgSeqNum" fun _ => .assigned (.uint n), .length "Entries" 1,
  .row "Entries" 0 [fun _ => size, Entry.emptied]]

/-- The message of the only slot. -/
def quoteMessage (n : UInt64) (size : Entry) : Message :=
  (quotes.messages.headD default).fill (quote n size)

/-- Once a quote has been sent, one with its number and without a size fails behind settled fields. -/
theorem encode_failure_repeated :
    let sent := Encoder.fresh.encode (quoteMessage 1 (.assigned (.uint 10)))
    let m := sent.message.fill (quote 1 (.undefined (.uint 0)))
    (sent.encoder.encode m).result = .error (.mandatoryMissing 271) ∧
      (sent.encoder.written m).map (·.decl.name) = ["MsgSeqNum", "Venue", "NoEntries"] ∧
      (∀ f ∈ sent.encoder.written m, f.IsSettled) ∧ (sent.encoder.encode m).message.Agrees m := by
  intro sent m
  have he : (sent.encoder.encode m).result = .error (.mandatoryMissing 271) := by decide +kernel
  have hs : ∀ f ∈ sent.encoder.written m, f.IsSettled := by decide +kernel
  exact ⟨he, by decide +kernel, hs, ((encode_failure he).2.2 hs).1⟩

/--
A quote without a size sends nothing, and yet its number is remembered: the next quote leaves its own
number out, and a receiver that was sent no other message has nothing to infer it from.
-/
theorem encode_failure_moves :
    let m := quoteMessage 1 (.undefined (.uint 0))
    let failed := Encoder.fresh.encode m
    let next := failed.encoder.encode (failed.message.fill (quote 2 (.assigned (.uint 10))))
    failed.result = .error (.mandatoryMissing 271) ∧
      failed.message.items.map (·.carrier.previous) ≠ m.items.map (·.carrier.previous) ∧
      next.result = .ok [192, 135, 129, 192, 138, 128] ∧
      (Decoder.fresh.decode quotes.messages [192, 135, 129, 192, 138, 128]).result =
        .error (.garbled (.mandatoryMissing 34)) := by
  decide +kernel

end Decoder

end MarketFeed
