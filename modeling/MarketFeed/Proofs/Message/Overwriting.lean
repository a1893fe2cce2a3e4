import MarketFeed.Proofs.Message.Renewal

/-!
# What a read has gone over

A message is read into the fields of the one before it, front to back, and a read that runs dry or
meets something garbled leaves them as far as it came. Behind the items that it has gone over
everything is as it was (`Message.shownFrom_read`). A field counts as gone over once it has been
read, a group once its length has.
-/

namespace MarketFeed

namespace Outcome

variable {α : Type}

/-- Whether the token has been read. -/
def isDone : Outcome α → Bool
  | .done _ _ => true
  | .dry | .garbled _ _ => false

end Outcome

namespace Item

/-- Whether a read from `place` on changes the item. -/
def isOverwritten (map : PresenceMap) (place : GroupPlace) (bytes : List UInt8) : Item → Bool
  | scalar f => (f.read map bytes).isDone
  | group g =>
    match place with
    | .row _ _ => true
    | .length => (g.length.read map bytes).isDone

/-- How many items a read goes over. -/
def reach (map : PresenceMap) : List Item → GroupPlace → List UInt8 → Nat
  | [], _, _ => 0
  | i :: items, place, bytes =>
    match i.read map place bytes with
    | ⟨_, .done, rest⟩ => reach map items .length rest + 1
    | _ => (i.isOverwritten map place bytes).toNat

theorem state_read {i : Item} {map : PresenceMap} {place : GroupPlace} {bytes : List UInt8}
    (h : i.isOverwritten map place bytes = false) : (i.read map place bytes).state = i := by
  cases i with
  | scalar f =>
    rw [read_scalar]
    refine Progress.state_afterToken (J := (· = scalar f)) rfl fun f' rest hread => ?_
    simp [isOverwritten, hread, Outcome.isDone] at h
  | group g =>
    cases place with
    | row index place => cases h
    | length =>
      refine congrArg group ?_
      rw [Group.read_length]
      refine Progress.state_afterToken (J := (· = g)) rfl fun length rest hread => ?_
      simp [isOverwritten, hread, Outcome.isDone] at h

/-- Behind what a read has gone over the items are as they were. -/
theorem drop_readAll (map : PresenceMap) (items : List Item) (place : GroupPlace)
    (bytes : List UInt8) :
    (readAll map items place bytes).state.drop (reach map items place bytes) =
      items.drop (reach map items place bytes) := by
  induction items generalizing place bytes with
  | nil => rfl
  | cons i items ih =>
    have hstops (i' : Item) (hi' : i' = (i.read map place bytes).state) :
        (i' :: items).drop (i.isOverwritten map place bytes).toNat =
          (i :: items).drop (i.isOverwritten map place bytes).toNat := by
      cases h : i.isOverwritten map place bytes with
      | false => rw [hi', state_read h]
      | true => rfl
    unfold readAll reach
    rcases hread : i.read map place bytes with ⟨i', ending, rest⟩
    rw [hread] at hstops
    cases ending with
    | done => exact ih .length rest
    | dry place => exact hstops i' rfl
    | garbled e => exact hstops i' rfl

end Item

namespace Message

variable {m m' : Message} {n : Nat}

/-- How many items of the message a read goes over that starts at `place`. -/
def reach (m : Message) (map : PresenceMap) (place : Place) (bytes : List UInt8) : Nat :=
  place.item + Item.reach map (m.items.drop place.item) place.group bytes

/-- What the message shows behind its first items. -/
def shownFrom (n : Nat) (m : Message) : Message := { m.shown with items := m.shown.items.drop n }

theorem shownFrom_mono (h : m.shownFrom n = m'.shownFrom n) {k : Nat} (hk : n ≤ k) :
    m.shownFrom k = m'.shownFrom k := by
  obtain ⟨hid, hname, hresets, hitems⟩ := Message.mk.inj h
  obtain ⟨j, rfl⟩ := Nat.exists_eq_add_of_le hk
  have hdrop := congrArg (List.drop j) hitems
  rw [List.drop_drop, List.drop_drop] at hdrop
  rw [shownFrom, shownFrom, Message.mk.injEq]
  exact ⟨hid, hname, hresets, hdrop⟩

theorem drop_read (m : Message) (map : PresenceMap) (place : Place) (bytes : List UInt8) :
    (m.read map place bytes).state.items.drop (m.reach map place bytes) =
      m.items.drop (m.reach map place bytes) := by
  have hdrop := Item.drop_readAll map (m.items.drop place.item) place.group bytes
  change List.drop _ (m.items.take place.item ++ (Item.readAll map (m.items.drop place.item)
    place.group bytes).state) = _
  unfold reach
  rcases Nat.le_total place.item m.items.length with hplace | hplace
  · rw [List.drop_append, List.length_take, Nat.min_eq_left hplace, Nat.add_sub_cancel_left, hdrop,
      List.drop_drop, List.drop_eq_nil_of_le (by rw [List.length_take]; omega), List.nil_append]
  · rw [List.drop_eq_nil_of_le hplace, List.take_of_length_le hplace]
    simp [Item.readAll]

/-- Behind what a read has gone over the message shows what it did. -/
theorem shownFrom_read (m : Message) (map : PresenceMap) (place : Place) (bytes : List UInt8) :
    (m.read map place bytes).state.shownFrom (m.reach map place bytes) =
      m.shownFrom (m.reach map place bytes) := by
  have hitems := congrArg (List.map Item.shown) (m.drop_read map place bytes)
  rw [List.map_drop, List.map_drop] at hitems
  exact congrArg (Message.mk m.id m.name m.resets) hitems

end Message

end MarketFeed
