import MarketFeed.Proofs.Group.Relay

/-!
# Messages can be passed on

A message that agrees with a receiver's takes what the receiver has decoded, and is written in no
more bytes than that was decoded from. Decoded in its turn, from where the receiver stood before, it
leaves the receiver as it is: `Message.Agrees.relays`.
-/

namespace MarketFeed

namespace Item

def Typed : Item → Prop
  | scalar f => f.Typed
  | group g => g.Typed

theorem bit?_copyFrom (i src : Item) : (i.copyFrom src).bit? = i.bit? := by
  cases i with
  | scalar f => cases src <;> rfl
  | group g =>
    cases src with
    | scalar f => rfl
    | group src => exact g.bit_sizeFrom src

/-- An item passes on what another one that it agrees with has read. -/
theorem Agrees.relays {i r r' : Item} (h : i.Agrees r) (hi : i.Sound) (ht : r.Typed)
    (hr : r.Rectangular) {map : PresenceMap} {bytes rest : List UInt8}
    (hread : r.read map .length bytes = ⟨r', .done, rest⟩) {into : PresenceMap}
    (hwithin : into.Within map) :
    (i.copyFrom r').Sound ∧
    ∃ marked written i', (i.copyFrom r').write into = (.ok (marked, written), i') ∧
      written.length + rest.length ≤ bytes.length ∧ marked.Within map ∧ i'.Agrees r' ∧
      r'.Typed ∧ r'.Rectangular ∧
      ∀ sent, (i.copyFrom r').carrier.isMarked sent = (i.copyFrom r').carrier.marks →
        Completes (r.read sent .length) written r' := by
  cases i with
  | scalar f =>
    cases r with
    | group r => exact h.elim
    | scalar r =>
      rw [read_scalar] at hread
      obtain ⟨f', middle, hf, hread⟩ := Progress.afterToken_eq_done hread
      obtain ⟨rfl, -, rfl⟩ := Progress.mk.inj hread
      obtain ⟨marked, payload, hwrite, hlength, hwithin', hagree, htyped, htakes⟩ :=
        (Field.Agrees.put h (f.current.copyFrom f'.current)).relay_read ht hf
          (Entry.value?_copyFrom _ _) hwithin
      refine ⟨hi, marked, payload, scalar (f.put (f.current.copyFrom f'.current)).remembering, ?_,
        hlength, hwithin', hagree, htyped, trivial, fun sent hsent => ?_⟩
      · simp only [Item.copyFrom, write, hwrite]
      · rw [read_scalar, ← List.append_nil payload]
        exact .afterToken (htakes sent hsent) (.finished _) _ _
  | group g =>
    cases r with
    | scalar r => exact h.elim
    | group r =>
      obtain ⟨r', hread', rfl⟩ := Progress.within_eq_done hread
      have hkind : r.length.decl.kind = .uint := by
        rw [(Group.Agrees.length h).decl]
        exact hi.declares.kind
      have hcopyable := (Group.copyable_of_read hr hkind ht.length hread').1
      rw [Group.length_of_agrees h] at hcopyable
      obtain ⟨hsound, hmatches⟩ := Group.Sound.copyFrom hi hcopyable
      obtain ⟨marked, written, g', hwrite, hlength, hwithin', hagrees, ht', hrect, hcompletes⟩ :=
        (Group.Agrees.copyFrom h r').relays hsound ht hr hread' hmatches hwithin
      refine ⟨hsound, marked, written, group g', ?_, hlength, hwithin', hagrees, ht', hrect,
        fun sent hsent => (hcompletes sent hsent).within _ _⟩
      simp only [Item.copyFrom, write, hwrite]

/-- Items that agree with those that were read take what these hold, and pass it on. -/
theorem relay_readAll {items ritems ritems' : List Item}
    (hagree : List.Forall₂ Agrees items ritems) (hi : ∀ i ∈ items, i.Sound)
    (ht : ∀ r ∈ ritems, r.Typed) (hr : ∀ r ∈ ritems, r.Rectangular) {next : Nat}
    (hbits : BitsFrom next (items.map bit?)) {map : PresenceMap} {bytes rest : List UInt8}
    (hread : readAll map ritems .length bytes = ⟨ritems', .done, rest⟩) {into : PresenceMap}
    (hclear : into.ClearFrom next) (hwithin : into.Within map) :
    (∀ i ∈ List.zipWith copyFrom items ritems', i.Sound) ∧
    (List.zipWith copyFrom items ritems').map bit? = items.map bit? ∧
    ∃ marked written items',
      writeAll (List.zipWith copyFrom items ritems') into = (.ok (marked, written), items') ∧
      written.length + rest.length ≤ bytes.length ∧ marked.Within map ∧
      List.Forall₂ Agrees items' ritems' ∧ (∀ r ∈ ritems', r.Typed) ∧
      (∀ r ∈ ritems', r.Rectangular) ∧
      ∀ sent, (∀ n, sent.isSet n = marked.isSet n) →
        Completes (readAll sent ritems .length) written ritems' := by
  induction hagree generalizing next bytes ritems' into with
  | nil =>
    obtain ⟨rfl, -, rfl⟩ := Progress.mk.inj hread
    exact ⟨by simp, rfl, into, [], [], rfl, by simp, hwithin, .nil, by simp, by simp,
      fun _ _ => .finished _⟩
  | @cons i r items ritems hir hagree ih =>
    rw [readAll_cons] at hread
    obtain ⟨r', middle, hhead, hread⟩ := Progress.andThen_eq_done hread
    obtain ⟨ritems', htail, rfl⟩ := Progress.within_eq_done hread
    rw [List.forall_mem_cons] at hi ht hr
    obtain ⟨hsound, marked, written, i', hwrite, hlength, hwithin, hagree', ht', hr', hcompletes⟩ :=
      hir.relays hi.1 ht.1 hr.1 hhead hwithin
    -- The item takes the bits up to `next'`, those of its copy being its own.
    obtain ⟨w, hw, rfl⟩ := write_carrier hsound hwrite
    have hbits' : BitsFrom next ((i.copyFrom r').carrier.bit :: items.map bit?) := by
      rw [bit_carrier, bit?_copyFrom]
      exact hbits
    obtain ⟨next', hle, hbits', hclear', hbelow, hmarked⟩ := Field.clearFrom_write hw hbits' hclear
    obtain ⟨hsounds, hbitss, marked', written', items', hwrites, hlength', hwithin', hagrees, ht'',
      hr'', hreads⟩ := ih hi.2 ht.2 hr.2 hbits' htail hclear' hwithin
    refine ⟨List.forall_mem_cons.2 ⟨hsound, hsounds⟩, ?_, marked', written ++ written',
      i' :: items', ?_, ?_, hwithin', .cons hagree' hagrees, List.forall_mem_cons.2 ⟨ht', ht''⟩,
      List.forall_mem_cons.2 ⟨hr', hr''⟩, fun sent hsent => ?_⟩
    · rw [List.zipWith_cons_cons, List.map_cons, List.map_cons, hbitss, bit?_copyFrom]
    · simp only [List.zipWith_cons_cons, writeAll, hwrite, hwrites]
    · rw [List.length_append]
      omega
    · have hmarks : (i.copyFrom r').carrier.isMarked sent = (i.copyFrom r').carrier.marks := by
        refine hmarked sent fun n hn => ?_
        rw [hsent, clearFrom_writeAll hsounds hwrites (hbitss ▸ hbits') hclear' n hn]
      rw [readAll_cons]
      exact .andThen (hcompletes sent hmarks) ((hreads sent hsent).within _ _) _ _

end Item

/-! ## Messages -/

namespace Message

def Typed (m : Message) : Prop := ∀ i ∈ m.items, i.Typed

/-- A message passes on what another one that it agrees with has decoded. -/
theorem Agrees.relays {m r r' : Message} (h : m.Agrees r) (hm : m.Sound) (ht : r.Typed)
    (hr : r.Rectangular) {map : PresenceMap} {bytes rest : List UInt8}
    (hread : r.read map {} bytes = ⟨r', .done, rest⟩) {into : PresenceMap}
    (hclear : into.ClearFrom 1) (hwithin : into.Within map) :
    (m.copyFrom r').Sound ∧
    ∃ marked written m', (m.copyFrom r').write into = (.ok (marked, written), m') ∧
      written.length + rest.length ≤ bytes.length ∧ marked.Within map ∧ m'.Agrees r' ∧
      r'.Typed ∧ r'.Rectangular ∧
      ∀ sent, (∀ n, sent.isSet n = marked.isSet n) → Completes (r.read sent {}) written r' := by
  obtain ⟨items, hitems, rfl⟩ := Progress.within_eq_done hread
  obtain ⟨hsounds, hbits, marked, written, items', hwrite, hlength, hwithin', hagrees, ht', hr',
    hreads⟩ := Item.relay_readAll h.items hm.items ht hr hm.bits hitems hclear hwithin
  refine ⟨⟨hsounds, hbits ▸ hm.bits⟩, marked, written, { m with items := items' }, ?_, hlength,
    hwithin', ⟨h.id, h.resets, hagrees⟩, ht', hr', fun sent hsent => (hreads sent hsent).within _ _⟩
  simp only [write, copyFrom, List.take_zero, List.nil_append, hwrite]

end Message

end MarketFeed
