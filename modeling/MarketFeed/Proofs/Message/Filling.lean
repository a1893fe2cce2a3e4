import MarketFeed.Proofs.Message.Agreement

/-!
# Filling a message

A sender fills its message entry by entry, and gives each group its number of rows. None of this
touches what the fields remember, so a message that agreed with a receiver's still does.
-/

namespace MarketFeed

/-- One step of filling a message. -/
inductive Filling where
  | entry (field : String) (change : Entry → Entry)
  | length (group : String) (n : Nat)
  | absent (group : String)
  | row (group : String) (i : Nat) (changes : List (Entry → Entry))

namespace Filling

/-- What the step does to the item of its name. A length past the capacity is not taken. -/
def onItem : Filling → Item → Item
  | .entry _ change, i => i.update change
  | .length _ n, .group g => .group ((g.setLength? n).getD g)
  | .absent _, .group g => .group g.setAbsent
  | .row _ i changes, .group g => .group (g.updateRow i changes)
  | _, .scalar f => .scalar f

def name : Filling → String
  | .entry name _ | .length name _ | .absent name | .row name _ _ => name

def apply (m : Message) (step : Filling) : Message := m.modify step.name step.onItem

end Filling

/-- The message after these steps. -/
def Message.fill (m : Message) (steps : List Filling) : Message := steps.foldl Filling.apply m

namespace Group

variable {g r : Group}

theorem Sound.setLength? (h : g.Sound) {n : Nat} {g' : Group} (hg : g.setLength? n = some g') :
    g'.Sound := by
  unfold Group.setLength? at hg
  split at hg
  · next hn =>
    obtain rfl := Option.some.inj hg
    refine ⟨⟨h.declares.kind, h.declares.constant, h.declares.dictionary⟩,
      h.rectangular.resize n, ?_⟩
    have hlen := length_rows_resize g n
    simp only [maxRows] at hn
    simp only [Counted, transmittedLength, Field.put, Entry.asUInt, Entry.value?, hlen]
    change (UInt64.ofNat n).toNat = n
    rw [UInt64.toNat_ofNat']
    omega
  · cases hg

theorem Sound.setAbsent (h : g.Sound) : g.setAbsent.Sound := by
  refine ⟨⟨h.declares.kind, h.declares.constant, h.declares.dictionary⟩,
    h.rectangular.resize 0, ?_⟩
  have hlen := length_rows_resize g 0
  simp only [Counted, transmittedLength, Group.setAbsent]
  rw [hlen]
  rfl

theorem Rectangular.updateRow (h : g.Rectangular) (i : Nat) (changes : List (Entry → Entry)) :
    (g.updateRow i changes).Rectangular := by
  intro row hrow
  rcases List.mem_append.1 hrow with hrow | hrow
  · obtain ⟨j, hj⟩ := List.mem_iff_getElem?.1 hrow
    simp only [Group.updateRow, List.getElem?_modify] at hj
    obtain ⟨before, hbefore, hj⟩ := Option.map_eq_some_iff.1 hj
    have hlen := h before (List.mem_append_left _ (List.mem_of_getElem? hbefore))
    rw [← hj]
    simp only [Group.updateRow]
    split
    · rw [List.length_append, List.length_zipWith, List.length_drop]
      omega
    · exact hlen
  · exact h row (List.mem_append_right _ hrow)

theorem Sound.updateRow (h : g.Sound) (i : Nat) (changes : List (Entry → Entry)) :
    (g.updateRow i changes).Sound := by
  have hrows : (g.updateRow i changes).rows.length = g.rows.length := by
    simp [Group.updateRow]
  refine ⟨⟨h.declares.kind, h.declares.constant, h.declares.dictionary⟩,
    h.rectangular.updateRow i changes, ?_⟩
  have := h.counted
  simp only [Counted] at this ⊢
  rw [hrows]
  exact this

theorem Agrees.setLength? (h : g.Agrees r) {n : Nat} {g' : Group} (hg : g.setLength? n = some g') :
    g'.Agrees r := by
  unfold Group.setLength? at hg
  split at hg
  · obtain rfl := Option.some.inj hg
    exact ⟨h.head, h.length.put _, h.dictionary⟩
  · cases hg

end Group

namespace Item

variable {i r : Item}

theorem Sound.update (h : i.Sound) (change : Entry → Entry) : (i.update change).Sound := by
  cases i with
  | scalar f => exact h
  | group g => exact ⟨⟨h.declares.kind, h.declares.constant, h.declares.dictionary⟩, h.rectangular,
      h.counted⟩

theorem Sound.onItem (h : i.Sound) (step : Filling) : (step.onItem i).Sound := by
  cases step with
  | entry name change => exact h.update change
  | length name n =>
    cases i with
    | scalar f => exact h
    | group g =>
      simp only [Filling.onItem]
      cases hg : g.setLength? n with
      | none => exact h
      | some g' => exact Group.Sound.setLength? h hg
  | absent name =>
    cases i with
    | scalar f => exact h
    | group g => exact Group.Sound.setAbsent h
  | row name n changes =>
    cases i with
    | scalar f => exact h
    | group g => exact Group.Sound.updateRow h n changes

theorem bit?_onItem (i : Item) (step : Filling) : (step.onItem i).bit? = i.bit? := by
  cases step <;> cases i <;> try rfl
  next name n g =>
    simp only [Filling.onItem, Group.setLength?]
    split <;> rfl

theorem Agrees.onItem (h : i.Agrees r) (step : Filling) : (step.onItem i).Agrees r := by
  cases i with
  | scalar f =>
    cases r with
    | group r => exact h.elim
    | scalar r =>
      cases step with
      | entry name change => exact Field.Agrees.put h _
      | _ => exact h
  | group g =>
    cases r with
    | scalar r => exact h.elim
    | group r =>
      cases step with
      | entry name change => exact ⟨h.head.put _, h.length, h.dictionary⟩
      | absent name => exact ⟨h.head, h.length.put _, h.dictionary⟩
      | row name n changes => exact ⟨h.head, h.length, h.dictionary⟩
      | length name n =>
        simp only [Filling.onItem]
        cases hg : g.setLength? n with
        | none => exact h
        | some g' => exact Group.Agrees.setLength? h hg

end Item

namespace Message

variable {m r : Message}

/-- One side of a relation can change where each of its elements can. -/
theorem forall₂_modify {α β : Type} {R : α → β → Prop} {xs : List α} {ys : List β}
    (h : List.Forall₂ R xs ys) {f : α → α} (hf : ∀ x y, R x y → R (f x) y) (k : Nat) :
    List.Forall₂ R (xs.modify k f) ys := by
  induction h generalizing k with
  | nil => simp
  | cons hxy h ih =>
    cases k with
    | zero => exact .cons (hf _ _ hxy) h
    | succ k =>
      rw [List.modify_succ_cons]
      exact .cons hxy (ih k)

theorem Sound.apply (h : m.Sound) (step : Filling) : (step.apply m).Sound := by
  unfold Filling.apply modify
  split
  · next k _ =>
    refine ⟨fun i hi => ?_, ?_⟩
    · obtain ⟨j, hj⟩ := List.mem_iff_getElem?.1 hi
      rw [List.getElem?_modify] at hj
      obtain ⟨before, hbefore, rfl⟩ := Option.map_eq_some_iff.1 hj
      have hsound := h.items before (List.mem_of_getElem? hbefore)
      split
      · exact hsound.onItem step
      · exact hsound
    · have hbits : (m.items.modify k step.onItem).map Item.bit? = m.items.map Item.bit? := by
        apply List.ext_getElem?
        intro j
        rw [List.getElem?_map, List.getElem?_map, List.getElem?_modify]
        cases m.items[j]? with
        | none => rfl
        | some i =>
          simp only [Option.map_eq_map, Option.map_some]
          split
          · rw [Item.bit?_onItem]
          · rfl
      rw [hbits]
      exact h.bits
  · exact h

theorem Agrees.apply (h : m.Agrees r) (step : Filling) : (step.apply m).Agrees r := by
  unfold Filling.apply modify
  split
  · next k _ =>
    exact ⟨h.id, h.resets, forall₂_modify h.items (fun _ _ h => h.onItem step) k⟩
  · exact h

/-- Filling keeps what holds of a message in whatever state it is. -/
theorem fill_induction {P : Message → Prop} (hstep : ∀ m step, P m → P (Filling.apply m step))
    (h : P m) (steps : List Filling) : P (m.fill steps) := by
  unfold fill
  induction steps generalizing m with
  | nil => exact h
  | cons step steps ih => exact ih (hstep m step h)

theorem Sound.fill (h : m.Sound) (steps : List Filling) : (m.fill steps).Sound :=
  fill_induction (fun _ step h => h.apply step) h steps

theorem Agrees.fill (h : m.Agrees r) (steps : List Filling) : (m.fill steps).Agrees r :=
  fill_induction (P := (Message.Agrees · r)) (fun _ step h => h.apply step) h steps

end Message

end MarketFeed
