import MarketFeed.Proofs.Message.Filling

/-!
# Copying a message

A message is given what another one of its template holds: to each entry a value or none, to each
group its number of rows. This is a way of filling it, so what the fields remember is not touched.
-/

namespace MarketFeed

/-- The entry with the value of another one, or without one if that has none. -/
def Entry.copyFrom (e src : Entry) : Entry :=
  match src.value? with
  | some v => .assigned v
  | none => e.emptied

def Row.copyFrom (row src : Row) : Row := List.zipWith Entry.copyFrom row src

/-- The group with the length of the other one, and as many rows. -/
def Group.sizeFrom (g src : Group) : Group :=
  if src.length.current.isAssigned then (g.setLength? src.count).getD g else g.setAbsent

/-- The group with as many rows as the other one, and what these hold. -/
def Group.copyFrom (g src : Group) : Group :=
  { g.sizeFrom src with rows := List.zipWith Row.copyFrom (g.sizeFrom src).rows src.rows }

def Item.copyFrom : Item → Item → Item
  | .scalar f, .scalar src => .scalar (f.put (f.current.copyFrom src.current))
  | .group g, .group src => .group (g.copyFrom src)
  | i, _ => i

def Message.copyFrom (m src : Message) : Message :=
  { m with items := List.zipWith Item.copyFrom m.items src.items }

/-! ## What a copy holds -/

theorem Entry.value?_copyFrom (e src : Entry) : (e.copyFrom src).value? = src.value? := by
  unfold copyFrom
  split
  · next v hv => rw [hv]; rfl
  · next hv => rw [hv]; rfl

theorem map_zipWith_right {α β γ δ : Type} {f : α → β → γ} {g : γ → δ} {k : β → δ} {xs : List α}
    {ys : List β} (hlen : xs.length = ys.length) (hf : ∀ x ∈ xs, ∀ y ∈ ys, g (f x y) = k y) :
    (List.zipWith f xs ys).map g = ys.map k := by
  induction xs generalizing ys with
  | nil =>
    obtain rfl := List.eq_nil_of_length_eq_zero hlen.symm
    rfl
  | cons x xs ih =>
    obtain ⟨y, ys, rfl⟩ := List.exists_cons_of_length_eq_add_one hlen.symm
    rw [List.zipWith_cons_cons, List.map_cons, List.map_cons, hf x (by simp) y (by simp),
      ih (by simpa using hlen) fun x hx y hy =>
        hf x (List.mem_cons_of_mem _ hx) y (List.mem_cons_of_mem _ hy)]

theorem Row.values_copyFrom {row src : Row} (h : row.length = src.length) :
    (row.copyFrom src).map Entry.value? = src.map Entry.value? :=
  map_zipWith_right h fun e _ src _ => e.value?_copyFrom src

theorem Value.eq_uint_of_hasKind {v : Value} (h : v.hasKind .uint = true) : ∃ k, v = .uint k := by
  cases v with
  | uint k => exact ⟨k, rfl⟩
  | int v => cases h
  | decimal v => cases h
  | bytes bs => cases h

namespace Group

variable {g r src : Group}

/-- The one group holds what the other one does: its length, and row by row. -/
structure Matches (g r : Group) : Prop where
  length : g.length.current.value? = r.length.current.value?
  rows : g.rows.map (·.map Entry.value?) = r.rows.map (·.map Entry.value?)

theorem Matches.count (h : g.Matches r) : g.rows.length = r.rows.length := by
  simpa using congrArg List.length h.rows

/--
A group that can be copied to one of so many row fields: its length is a number and that of its
rows, and each of these has an entry for every field.
-/
structure Copyable (src : Group) (width : Nat) : Prop where
  kind : ∀ v, src.length.current.value? = some v → v.hasKind .uint = true
  counted : src.Counted
  max : src.rows.length ≤ maxRows
  widths : ∀ row ∈ src.rows, row.length = width

theorem Agrees.sizeFrom (h : g.Agrees r) (src : Group) : (g.sizeFrom src).Agrees r := by
  unfold Group.sizeFrom
  split
  · cases hg : g.setLength? src.count with
    | none => exact h
    | some sized => exact Agrees.setLength? h hg
  · exact ⟨h.head, h.length.put _, h.dictionary⟩

theorem Agrees.copyFrom (h : g.Agrees r) (src : Group) : (g.copyFrom src).Agrees r :=
  ⟨(h.sizeFrom src).head, (h.sizeFrom src).length, (h.sizeFrom src).dictionary⟩

theorem Sound.sizeFrom (h : g.Sound) (src : Group) : (g.sizeFrom src).Sound := by
  unfold Group.sizeFrom
  split
  · cases hg : g.setLength? src.count with
    | none => exact h
    | some sized => exact h.setLength? hg
  · exact h.setAbsent

theorem dictionary_sizeFrom (g src : Group) : (g.sizeFrom src).dictionary = g.dictionary := by
  unfold Group.sizeFrom setLength?
  split
  · split <;> rfl
  · rfl

theorem bit_sizeFrom (g src : Group) : (g.sizeFrom src).length.bit = g.length.bit := by
  unfold Group.sizeFrom setLength?
  split
  · split <;> rfl
  · rfl

/-- The length is the one copied, and there is room for its rows. -/
theorem Copyable.sizeFrom {width : Nat} (hs : src.Copyable width) (g : Group) :
    (g.sizeFrom src).length.current.value? = src.length.current.value? ∧
      (g.sizeFrom src).rows.length = src.rows.length := by
  have hcounted := hs.counted
  unfold Counted transmittedLength at hcounted
  unfold Group.sizeFrom
  cases ha : src.length.current.isAssigned with
  | true =>
    have hvalue := Entry.value?_of_isAssigned ha
    have hkind := hs.kind _ hvalue
    rw [if_pos rfl, Group.setLength?, if_pos (show src.count ≤ maxRows from hs.max),
      Option.getD_some]
    refine ⟨?_, length_rows_resize g src.count⟩
    obtain ⟨k, hk⟩ := Value.eq_uint_of_hasKind hkind
    rw [hk] at hvalue
    rw [Entry.asUInt, hvalue] at hcounted
    rw [hvalue]
    change some (Value.uint (.ofNat src.rows.length)) = some (.uint k)
    rw [← hcounted]
    change some (Value.uint (.ofNat k.toNat)) = some (.uint k)
    rw [UInt64.ofNat_toNat]
  | false =>
    have hvalue := Entry.value?_of_not_isAssigned ha
    rw [if_neg (by simp), hvalue]
    rw [Entry.asUInt, hvalue] at hcounted
    exact ⟨rfl, (length_rows_resize g 0).trans hcounted⟩

/-- A group takes from another one of its shape what that holds, and stays what it is besides. -/
theorem Sound.copyFrom (hg : g.Sound) (hs : src.Copyable g.dictionary.length) :
    (g.copyFrom src).Sound ∧ (g.copyFrom src).Matches src := by
  obtain ⟨hlength, hcount⟩ := hs.sizeFrom g
  obtain ⟨hdeclares, hrect, hcounted⟩ := hg.sizeFrom src
  have hwidth := hs.widths
  rw [← dictionary_sizeFrom g src] at hwidth
  have hrow : ∀ row ∈ (g.sizeFrom src).rows, ∀ row' ∈ src.rows, row.length = row'.length :=
    fun row hrow row' hrow' =>
      (hrect row (List.mem_append_left _ hrow)).trans (hwidth row' hrow').symm
  have hrows : (g.copyFrom src).rows.map (·.map Entry.value?) =
      src.rows.map (·.map Entry.value?) :=
    map_zipWith_right hcount fun row hr row' hr' => Row.values_copyFrom (hrow row hr row' hr')
  refine ⟨⟨⟨hdeclares.kind, hdeclares.constant, hdeclares.dictionary⟩, fun row hr => ?_, ?_⟩,
    hlength, hrows⟩
  · rcases List.mem_append.1 hr with hr | hr
    · have hmem : row.map Entry.value? ∈ src.rows.map (·.map Entry.value?) := by
        rw [← hrows]
        exact List.mem_map_of_mem hr
      obtain ⟨row', hr', heq⟩ := List.mem_map.1 hmem
      have := congrArg List.length heq
      rw [List.length_map, List.length_map] at this
      exact this.symm.trans (hwidth row' hr')
    · exact hrect row (List.mem_append_right _ hr)
  · have hlen : (g.copyFrom src).rows.length = src.rows.length := by
      simpa using congrArg List.length hrows
    exact hcounted.trans (hcount.trans hlen.symm)

end Group

end MarketFeed
