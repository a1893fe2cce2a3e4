import MarketFeed.Proofs.Group.Counting
import MarketFeed.Proofs.Stream.Contract
import MarketFeed.Proofs.Stream.RoundTrip

/-!
# Slots in use

Filling and encoding leave alone what decoding and resetting do: the declarations of a slot, its
presence bits, and the width of its rows. So the groups of an accepted set are as they were declared
whatever was done to their slots, in any order, and as many rows are read as were written.
-/

namespace MarketFeed

/-! ## What is kept -/

namespace Group

variable {g g' : Group}

theorem Moved.keeps (h : g.Moved g') : g.Keeps g' :=
  keeps_of_frame (by rw [h.head]) h.length h.dictionary h.rectangular

theorem keeps_setLength? {n : Nat} (h : g.setLength? n = some g') : g.Keeps g' := by
  unfold setLength? at h
  split at h
  · obtain rfl := Option.some.inj h
    exact keeps_of_frame rfl rfl rfl (Rectangular.resize · n)
  · cases h

theorem keeps_setAbsent (g : Group) : g.Keeps g.setAbsent :=
  keeps_of_frame rfl rfl rfl (Rectangular.resize · 0)

theorem keeps_updateRow (g : Group) (i : Nat) (changes : List (Entry → Entry)) :
    g.Keeps (g.updateRow i changes) :=
  keeps_of_frame rfl rfl rfl (Rectangular.updateRow · i changes)

theorem frame_length_of_reset (h : g'.reset.bare = g.reset.bare) :
    g'.length.frame = g.length.frame := by
  have hlength := congrArg (fun g : Group => g.length.frame) h
  exact hlength

theorem frame_dictionary_of_reset (h : g'.reset.bare = g.reset.bare) :
    g'.dictionary.map Field.frame = g.dictionary.map Field.frame := by
  have hfields := congrArg (fun g : Group => g.dictionary.map Field.frame) h
  simp only [bare, reset, List.map_map] at hfields
  exact hfields

theorem Declares.of_reset (hd : g.Declares) (h : g'.reset.bare = g.reset.bare) : g'.Declares := by
  have hdecl := congrArg Prod.fst (frame_length_of_reset h)
  simp only [Field.frame] at hdecl
  refine ⟨?_, ?_, hd.dictionary.of_frames (frame_dictionary_of_reset h)⟩
  · rw [hdecl]
    exact hd.kind
  · rw [hdecl]
    exact hd.constant

end Group

theorem Item.Moved.keeps {i i' : Item} (h : i.Moved i') : i.Keeps i' := by
  cases i with
  | scalar f =>
    cases i' with
    | scalar f' => exact ⟨congrArg Item.scalar (Field.reset_of_frame h.1), id⟩
    | group g' => exact h.elim
  | group g =>
    cases i' with
    | scalar f' => exact h.elim
    | group g' => exact keeps_of_group (Group.Moved.keeps h)

theorem Item.keeps_onItem (i : Item) (step : Filling) : i.Keeps (step.onItem i) := by
  cases i with
  | scalar f => cases step <;> exact ⟨rfl, id⟩
  | group g =>
    cases step with
    | entry name change => exact ⟨rfl, id⟩
    | absent name => exact keeps_of_group g.keeps_setAbsent
    | row name i changes => exact keeps_of_group (g.keeps_updateRow i changes)
    | length name n =>
      simp only [Filling.onItem]
      cases hg : g.setLength? n with
      | none => exact keeps_refl _
      | some g' => exact keeps_of_group (Group.keeps_setLength? hg)

namespace Message

theorem keeps_apply (m : Message) (step : Filling) : m.Keeps (step.apply m) := by
  unfold Filling.apply modify
  split
  · next k _ =>
    refine keeps_of_items (List.forall₂_iff_get.2 ⟨by simp, fun j hj hj' => ?_⟩)
    simp only [List.get_eq_getElem, List.getElem_modify]
    split
    · exact Item.keeps_onItem _ step
    · exact Item.keeps_refl _
  · exact m.keeps_refl

theorem keeps_fill (m : Message) (steps : List Filling) : m.Keeps (m.fill steps) :=
  fill_induction (fun _ step h => h.trans (keeps_apply _ step)) m.keeps_refl steps

theorem keeps_encode (enc : Encoder) (m : Message) : m.Keeps (enc.encode m).message := by
  have hwrite : m.Keeps (m.write (enc.start m)).2 :=
    keeps_of_items ((Item.moved_writeAll m.items (enc.start m)).imp fun _ _ h => h.keeps)
  rw [Encoder.encode_eq]
  rcases hm : m.write (enc.start m) with ⟨_ | _, m'⟩ <;> simpa [hm] using hwrite

end Message

/-! ## Any work on the slots -/

namespace Messages

/-- What the slots of a set come to, whatever fills, encodes, decodes and resets them. -/
inductive Handled (set : TemplateSet) : Messages → Prop
  | fresh : Handled set set.messages
  | fill {ms : Messages} (h : Handled set ms) (slot : Nat) (steps : List Filling) :
      Handled set (ms.modify slot (·.fill steps))
  | encode {ms : Messages} (h : Handled set ms) (slot : Nat) (enc : Encoder) :
      Handled set (ms.modify slot fun m => (enc.encode m).message)
  | decode {ms : Messages} (h : Handled set ms) (d : Decoder) (buffer : List UInt8) :
      Handled set (d.decode ms buffer).messages
  | resetAt {ms : Messages} (h : Handled set ms) (slot : Nat) : Handled set (ms.resetAt slot)

variable {set : TemplateSet} {ms rs : Messages}

theorem Handled.keeps (h : Handled set ms) : set.messages.Keeps ms := by
  induction h with
  | fresh => exact set.messages.keeps_refl
  | fill _ slot steps ih => exact ih.trans (keeps_modify _ slot (Message.keeps_fill · steps))
  | encode _ slot enc ih => exact ih.trans (keeps_modify _ slot (Message.keeps_encode enc))
  | decode _ d buffer ih => exact ih.trans (Decoder.keeps_decode d _ buffer)
  | resetAt _ slot ih => exact ih.trans (keeps_resetAt _ slot)

/-- Each group is the one of the fresh slot, but for what it holds. -/
theorem Handled.exists_fresh (h : Handled set ms) {m : Message} (hm : m ∈ ms) {g : Group}
    (hg : .group g ∈ m.items) :
    ∃ m₀ ∈ set.messages, ∃ g₀, .group g₀ ∈ m₀.items ∧ g.reset.bare = g₀.reset.bare := by
  have hmem : m.reset.bare ∈ set.messages.reset.map Message.bare := by
    rw [← h.keeps.reset]
    exact List.mem_map_of_mem (List.mem_map_of_mem hm)
  obtain ⟨_, hreset, heq⟩ := List.mem_map.1 hmem
  obtain ⟨m₀, hm₀, rfl⟩ := List.mem_map.1 hreset
  have hitem : (Item.group g).reset.bare ∈ m₀.reset.bare.items := by
    rw [heq]
    exact List.mem_map_of_mem (List.mem_map_of_mem hg)
  obtain ⟨_, hreset, heq⟩ := List.mem_map.1 hitem
  obtain ⟨i₀, hi₀, rfl⟩ := List.mem_map.1 hreset
  cases i₀ with
  | scalar f => cases heq
  | group g₀ => exact ⟨m₀, hm₀, g₀, hi₀, (Item.group.inj heq).symm⟩

/-- The groups of a set are in use as they were accepted. -/
theorem Handled.group (h : Handled set ms) {m : Message} (hm : m ∈ ms) {g : Group}
    (hg : .group g ∈ m.items) : g.Declares ∧ g.length.decl.Valid ∧ g.Rectangular := by
  obtain ⟨m₀, hm₀, g₀, hg₀, hreset⟩ := h.exists_fresh hm hg
  have hsound : g₀.Sound := (set.sound_messages m₀ hm₀).items _ hg₀
  have hformed : g₀.Formed := set.formed_messages m₀ hm₀ _ hg₀
  refine ⟨hsound.declares.of_reset hreset, ?_,
    h.keeps.rectangular set.rectangular_messages m hm _ hg⟩
  have hdecl := congrArg Prod.fst (Group.frame_length_of_reset hreset)
  simp only [Field.frame] at hdecl
  exact hdecl ▸ hformed.length.valid

end Messages

namespace Group

open Messages (Handled)

/--
As many rows are read as were written, and the same ones, whatever was done to the slots of the two
sides, as long as the group remembers the same on both. The one exception is a constant length that
is not the number of rows: the sender goes by its own, the receiver by the declared one.
-/
theorem rows_arrive (set : TemplateSet) {ms rs : Messages} (hs : Handled set ms)
    (hr : Handled set rs) {m m' : Message} (hm : m ∈ ms) (hm' : m' ∈ rs) {g r : Group}
    (hg : .group g ∈ m.items) (hr' : .group r ∈ m'.items)
    (hagree : g.Agrees r) {map map' : PresenceMap} (hclear : g.length.isMarked map = false)
    {bytes : List UInt8} {g' : Group} (hw : g.write map = (.ok (map', bytes), g'))
    {sent : PresenceMap} (hsent : r.length.isMarked sent = g.length.isMarked map') :
    g.RowsArrive r map sent bytes := by
  obtain ⟨hdeclares, hvalid, hrect⟩ := hs.group hm hg
  obtain ⟨-, -, hrect'⟩ := hr.group hm' hr'
  exact hagree.rowsArrive hdeclares hvalid hrect hrect' hclear hw hsent

/-- A pair has two legs, a count that is never sent. -/
def pairs : TemplateSet where
  templates := [{ id := 1, name := "Pair", fields := [
    .group { name := "Legs", id := 555, kind := .sequence }
      (.scalar { name := "NoLegs", id := 555, kind := .uint, op := .constant,
                 init := some (.uint 2) })
      [.scalar { name := "Size", id := 271, kind := .uint }]] }]
  accepted := rfl

/-- The slots of a pair with legs of these sizes. -/
def pairOf (sizes : List UInt64) : Messages :=
  pairs.messages.modify 0 (·.fill (.length "Legs" sizes.length ::
    sizes.zipIdx.map fun (size, i) => .row "Legs" i [fun _ => .assigned (.uint size)]))

def legs (ms : Messages) : Group := (ms.head?.bind (·.group? "Legs")).getD default

theorem rows_arrive_pair :
    ∃ g', (legs (pairOf [5, 6])).write .empty = (.ok (.empty, [133, 134]), g') ∧
      (legs (pairOf [5, 6])).RowsArrive (legs pairs.messages) .empty .empty [133, 134] := by
  have hs : Handled pairs (pairOf [5, 6]) := .fill .fresh 0 _
  have hm : (pairOf [5, 6])[0] ∈ pairOf [5, 6] := List.getElem_mem _
  have hm' : pairs.messages[0] ∈ pairs.messages := List.getElem_mem _
  have hg : .group (legs (pairOf [5, 6])) ∈ (pairOf [5, 6])[0].items := .head _
  have hr : .group (legs pairs.messages) ∈ pairs.messages[0].items := .head _
  have hagree : (legs (pairOf [5, 6])).Agrees (legs pairs.messages) :=
    ⟨⟨rfl, rfl, rfl⟩, ⟨rfl, rfl, rfl⟩, .cons ⟨rfl, rfl, rfl⟩ .nil⟩
  exact ⟨_, rfl, rows_arrive pairs hs .fresh hm hm' hg hr hagree rfl rfl rfl⟩

/-- One leg is encoded, and two are expected. -/
theorem rows_lost : ∃ m, (pairOf [5])[0]? = some m ∧
    (Encoder.fresh.encode m).result = .ok [192, 129, 133] ∧ (legs [m]).count = 1 ∧
    let r := Decoder.fresh.decode pairs.messages [192, 129, 133]
    r.result = .error .incomplete ∧ (legs r.messages).count = 2 :=
  ⟨_, rfl, rfl, rfl, by decide, by decide⟩

end Group

end MarketFeed
