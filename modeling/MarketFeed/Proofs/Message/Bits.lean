import MarketFeed.Proofs.Group.Errors
import MarketFeed.Proofs.Message.Agreement

/-!
# Presence bits that are apart

A field that requires no bit reads none, whether it holds one or not. Where those that require one
hold bits in order, what one of them writes to the presence map is nothing that another reads, and
all of them find room in it, whatever they contain and whether or not they can be written.
-/

namespace MarketFeed

/-! ## Bits in order -/

namespace Field

/-- If both fields require a bit, that of the first is below that of the second. -/
def Precedes (f f' : Field) : Prop :=
  f.decl.requiresBit = true → f'.decl.requiresBit = true →
    ∀ bit bit', f.bit = some bit → f'.bit = some bit' → bit < bit'

/-- The fields that require a bit hold one each, from `low` to `high`, in order of declaration. -/
structure Numbered (low high : Nat) (fields : List Field) : Prop where
  holds : ∀ f ∈ fields, f.decl.requiresBit = true →
    ∃ bit, f.bit = some bit ∧ low ≤ bit ∧ bit ≤ high
  increasing : fields.Pairwise Precedes

namespace Numbered

variable {low high : Nat} {f : Field} {fields fields' : List Field}

theorem nil : Numbered low high [] := ⟨by simp, .nil⟩

theorem cons_unnumbered (hf : f.decl.requiresBit = false) (h : Numbered low high fields) :
    Numbered low high (f :: fields) where
  holds := List.forall_mem_cons.2
    ⟨fun hrequires => absurd (hf.symm.trans hrequires) Bool.false_ne_true, h.holds⟩
  increasing := .cons
    (fun _ _ hrequires => absurd (hf.symm.trans hrequires) Bool.false_ne_true) h.increasing

theorem cons (hbit : f.bit = some low) (hle : low ≤ high) (h : Numbered (low + 1) high fields) :
    Numbered low high (f :: fields) where
  holds := by
    refine List.forall_mem_cons.2
      ⟨fun _ => ⟨low, hbit, Nat.le_refl low, hle⟩, fun f' hf' hrequires => ?_⟩
    obtain ⟨bit, hbit, hlow, hhigh⟩ := h.holds f' hf' hrequires
    exact ⟨bit, hbit, Nat.le_of_succ_le hlow, hhigh⟩
  increasing := by
    refine .cons (fun f' hf' _ hrequires bit bit' hfbit hbit' => ?_) h.increasing
    obtain ⟨bit'', hbit'', hlow, -⟩ := h.holds f' hf' hrequires
    obtain rfl := Option.some.inj (hbit.symm.trans hfbit)
    obtain rfl := Option.some.inj (hbit'.symm.trans hbit'')
    exact hlow

/-- What the fields contain has no part in it. -/
theorem of_frames (h : Numbered low high fields)
    (hframes : fields'.map Field.frame = fields.map Field.frame) : Numbered low high fields' where
  holds f hf hrequires := by
    have hmem : f.frame ∈ fields.map Field.frame := hframes ▸ List.mem_map_of_mem hf
    obtain ⟨f₀, hf₀, heq⟩ := List.mem_map.1 hmem
    obtain ⟨hdecl, hbit⟩ := Prod.mk.inj heq
    obtain ⟨bit, hbit₀, hbounds⟩ := h.holds f₀ hf₀ (by rw [hdecl]; exact hrequires)
    exact ⟨bit, hbit ▸ hbit₀, hbounds⟩
  increasing := by
    let R (x y : Decl × Option Nat) : Prop := x.1.requiresBit = true → y.1.requiresBit = true →
      ∀ bit bit', x.2 = some bit → y.2 = some bit' → bit < bit'
    have hpairwise : (fields.map Field.frame).Pairwise R := List.pairwise_map.2 h.increasing
    rw [← hframes] at hpairwise
    exact (List.pairwise_map (R := R)).1 hpairwise

end Numbered

/-! ## Reading -/

/-- Reading looks at no bit but the field's own, and at that only if the field requires one. -/
def AsksOwn (f : Field) : Prop :=
  ∀ map map' : PresenceMap, (f.decl.requiresBit = true → f.isMarked map = f.isMarked map') →
    f.read map = f.read map'

theorem asksOwn (f : Field) : f.AsksOwn := by
  intro map map' h
  unfold read
  cases hop : f.decl.op with
  | none => rfl
  | delta => rfl
  | copy =>
    dsimp only
    rw [h (by rw [Decl.requiresBit, hop])]
  | increment =>
    dsimp only
    rw [h (by rw [Decl.requiresBit, hop])]
  | constant =>
    have htake : f.takeConstant map = f.takeConstant map' := by
      unfold takeConstant
      cases hoptional : f.decl.isOptional with
      | false => rfl
      | true => rw [h (by rw [Decl.requiresBit, hop]; exact hoptional)]
    rw [htake]

/-! ## Writing -/

theorem requiresBit_of_marks {f : Field} (h : f.marks = true) : f.decl.requiresBit = true := by
  unfold marks at h
  unfold Decl.requiresBit
  cases hop : f.decl.op with
  | none => simp [hop] at h
  | delta => simp [hop] at h
  | copy => rfl
  | increment => rfl
  | constant =>
    rw [hop] at h
    exact (Bool.and_eq_true_iff.1 h).1

theorem mapAfterWrite_of_write {f : Field} {map : PresenceMap} {w : Written}
    (h : f.write map = .ok w) : f.mapAfterWrite map = w.map := by
  obtain ⟨hcheck, hmark, -⟩ := write_eq_ok h
  rw [mapAfterWrite, hcheck, hmark]

/-- An attempt to write sets at most the bit of a field that requires one. -/
theorem isSet_mapAfterWrite_of_ne {f : Field} (map : PresenceMap) {i : Nat}
    (h : f.decl.requiresBit = true → f.bit ≠ some i) :
    (f.mapAfterWrite map).isSet i = map.isSet i := by
  unfold mapAfterWrite
  split
  · next marked _ hmark =>
    unfold mark at hmark
    split at hmark
    · next hm =>
      split at hmark
      · next map' hset =>
        obtain rfl := Except.ok.inj hmark
        obtain ⟨bit, hbit, hset⟩ := Option.bind_eq_some_iff.1 hset
        have hne : i ≠ bit := by
          rintro rfl
          exact h (requiresBit_of_marks hm) hbit
        rw [PresenceMap.isSet_set? hset, beq_false_of_ne hne, Bool.or_false]
      · cases hmark
    · rw [Except.ok.inj hmark]
  · rfl

/-- Whatever `f` contains, an attempt to write it leaves the bit alone that `f'` reads. -/
def LeavesAlone (f f' : Field) : Prop :=
  f'.decl.requiresBit = true → ∀ (e : Entry) (map : PresenceMap),
    f'.isMarked ((f.put e).mapAfterWrite map) = f'.isMarked map ∧
      ∀ w, (f.put e).write map = .ok w → f'.isMarked w.map = f'.isMarked map

theorem leavesAlone_of_ne {f f' : Field} (h : f.decl.requiresBit = true →
      f'.decl.requiresBit = true → ∀ bit, f.bit = some bit → f'.bit ≠ some bit) :
    f.LeavesAlone f' := by
  intro hrequires e map
  have hmap : f'.isMarked ((f.put e).mapAfterWrite map) = f'.isMarked map := by
    unfold isMarked
    cases hbit : f'.bit with
    | none => rfl
    | some bit =>
      exact isSet_mapAfterWrite_of_ne map fun hf hfbit => h hf hrequires bit hfbit hbit
  exact ⟨hmap, fun w hw => by rw [← mapAfterWrite_of_write hw, hmap]⟩

theorem Precedes.leavesAlone {f f' : Field} (h : f.Precedes f') :
    f.LeavesAlone f' ∧ f'.LeavesAlone f :=
  ⟨leavesAlone_of_ne fun hf hf' bit hbit hbit' => Nat.lt_irrefl bit (h hf hf' bit bit hbit hbit'),
    leavesAlone_of_ne fun hf' hf bit hbit' hbit => Nat.lt_irrefl bit (h hf hf' bit bit hbit hbit')⟩

/-- A field that holds a bit of the map, if it requires one, finds room for it. -/
theorem write_ne_overflow {f : Field}
    (h : f.decl.requiresBit = true → ∃ bit, f.bit = some bit ∧ bit ≤ 55) (map : PresenceMap) :
    FailsWith (∀ id, · ≠ .pmapOverflow id) (f.write map) := by
  refine write_failsWith (fun e he id => ?_) (fun _ => nofun) nofun fun hm hnone => ?_
  · rintro rfl
    cases he
  · obtain ⟨bit, hbit, hle⟩ := h (requiresBit_of_marks hm)
    rw [hbit, Option.bind_some, PresenceMap.set?, dif_pos (by unfold PresenceMap.maxGroups; omega)]
      at hnone
    cases hnone

end Field

/-! ## Items -/

namespace Item

/-- Reading looks at no bit but the item's own, and at that only if the item requires one. -/
def AsksOwn (i : Item) : Prop :=
  ∀ map map' : PresenceMap,
    (i.carrier.decl.requiresBit = true → i.carrier.isMarked map = i.carrier.isMarked map') →
      i.read map = i.read map'

theorem asksOwn (i : Item) : i.AsksOwn := by
  intro map map' h
  funext place bytes
  cases i with
  | scalar f =>
    have hread : f.read map = f.read map' := f.asksOwn map map' h
    simp only [read, hread]
  | group g =>
    cases place with
    | row i place => rfl
    | length =>
      have hread : g.length.read map = g.length.read map' := g.length.asksOwn map map' h
      simp only [read, Group.read, hread]

/-- An attempt to write the one item leaves the bit alone that the other reads. -/
def LeavesAlone (i j : Item) : Prop :=
  j.carrier.decl.requiresBit = true → ∀ map : PresenceMap,
    j.carrier.isMarked (i.carrier.mapAfterWrite map) = j.carrier.isMarked map ∧
      ∀ map' bytes, (i.write map).1 = .ok (map', bytes) →
        j.carrier.isMarked map' = j.carrier.isMarked map

/-- The map of a message is written by the item's own field, whatever there is in the rows. -/
theorem exists_write_carrier {i : Item} {map map' : PresenceMap} {bytes : List UInt8}
    (h : (i.write map).1 = .ok (map', bytes)) :
    ∃ w, i.carrier.write map = .ok w ∧ w.map = map' := by
  cases i with
  | scalar f =>
    unfold write at h
    dsimp only at h
    split at h
    · next w hw => exact ⟨w, hw, congrArg Prod.fst (Except.ok.inj h)⟩
    · cases h
  | group g =>
    unfold write Group.write at h
    dsimp only at h
    split at h
    · cases h
    · split at h
      · cases h
      · next w hw =>
        split at h
        · cases h
        · exact ⟨w, hw, congrArg Prod.fst (Except.ok.inj h)⟩

theorem leavesAlone_of_carrier {i j : Item} (h : i.carrier.LeavesAlone j.carrier) :
    i.LeavesAlone j := by
  intro hrequires map
  obtain ⟨hmap, hwritten⟩ := h hrequires i.carrier.current map
  refine ⟨hmap, fun map' bytes hitem => ?_⟩
  obtain ⟨w, hw, rfl⟩ := exists_write_carrier hitem
  exact hwritten w hw

/-- An item finds room in the map of the message, and its rows in theirs. -/
theorem write_ne_overflow {items : List Item} (hitems : Field.Numbered 1 55 (items.map carrier))
    (hrows : ∀ g, group g ∈ items → Field.Numbered 0 55 g.dictionary) {i : Item} (hi : i ∈ items)
    (map : PresenceMap) : FailsWith (∀ id, · ≠ .pmapOverflow id) (i.write map).1 := by
  have hcarrier : FailsWith (∀ id, · ≠ .pmapOverflow id) (i.carrier.write map) := by
    refine Field.write_ne_overflow (fun hrequires => ?_) map
    obtain ⟨bit, hbit, -, hle⟩ := hitems.holds _ (List.mem_map_of_mem hi) hrequires
    exact ⟨bit, hbit, hle⟩
  cases i with
  | scalar f =>
    unfold write
    dsimp only
    split
    · exact .ok _
    · next e he => exact .error (hcarrier e he)
  | group g =>
    refine Group.write_failsWith (fun _ _ => nofun) hcarrier fun f hf => ⟨fun _ => nofun, ?_⟩
    refine Field.write_ne_overflow fun hrequires => ?_
    obtain ⟨f₀, hf₀, hframe⟩ := List.mem_map.1 hf
    obtain ⟨hdecl, hbit₀⟩ := Prod.mk.inj hframe
    obtain ⟨bit, hbit, -, hle⟩ := (hrows g hi).holds f₀ hf₀ (by rw [hdecl]; exact hrequires)
    exact ⟨bit, hbit₀ ▸ hbit, hle⟩

end Item

end MarketFeed
