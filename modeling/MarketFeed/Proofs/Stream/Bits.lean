import MarketFeed.Proofs.Message.Bits
import MarketFeed.Proofs.Stream.Failure
import MarketFeed.Proofs.Stream.Handling

/-!
# Presence bits of a set

Acceptance makes sure that there are bits for all the fields of a message that require one, behind
the bit of the template id, and for all the fields of a row. They are handed out by what the field
is once it has been made, and nothing that is done to a slot changes them. So every message of the
set can be written into its presence maps.
-/

namespace MarketFeed

/-! ## Declarations as they are made -/

namespace FieldSpec

/-- The fields that can be made, by settings in any order. A group is declared as one to begin with. -/
inductive Made : FieldSpec → Prop
  | new (kind : Kind) (name : String) (id : UInt32) : Made (.scalar { name, id, kind })
  | sequence (name : String) (id : UInt32) {length : FieldSpec} {row : List FieldSpec}
      (hlength : Made length) (hrow : ∀ s ∈ row, Made s) :
      Made (.sequence { name, id, kind := .sequence } length row)
  | optional {s : FieldSpec} (h : Made s) : Made s.optional
  | withOperator {s : FieldSpec} (h : Made s) (op : Operator) :
      Made (s.withDecl { s.decl with op })
  | withReset {s : FieldSpec} (h : Made s) (v : Value) :
      Made (s.withDecl { s.decl with init := some v })

/-- What has rows is declared as a group. -/
def TellsRows : FieldSpec → Prop
  | scalar _ => True
  | group d _ _ => d.kind = .sequence

theorem TellsRows.withDecl {s : FieldSpec} (h : s.TellsRows) {d : Decl}
    (hkind : d.kind = s.decl.kind) : (s.withDecl d).TellsRows := by
  cases s with
  | scalar _ => trivial
  | group _ length row => exact hkind.trans h

/-- Its parts tell as well. -/
def PartsTellRows : FieldSpec → Prop
  | scalar _ => True
  | group _ length row => length.TellsRows ∧ ∀ s ∈ row, s.TellsRows

theorem Made.tellsRows {s : FieldSpec} (h : s.Made) : s.TellsRows ∧ s.PartsTellRows := by
  induction h with
  | new kind name id => exact ⟨trivial, trivial⟩
  | sequence name id hlength hrow ihlength ihrow =>
    exact ⟨rfl, ihlength.1, fun s hs => (ihrow s hs).1⟩
  | @optional s h ih =>
    cases s with
    | scalar d => exact ⟨trivial, trivial⟩
    | group d length row => exact ⟨ih.1, ih.2.1.withDecl rfl, ih.2.2⟩
  | @withOperator s h op ih =>
    cases s with
    | scalar d => exact ⟨trivial, trivial⟩
    | group d length row => exact ih
  | @withReset s h v ih =>
    cases s with
    | scalar d => exact ⟨trivial, trivial⟩
    | group d length row => exact ih

theorem TellsRows.requiresBit {s : FieldSpec} (h : s.TellsRows) (hkind : s.decl.kind ≠ .sequence) :
    s.decl.requiresBit = s.requiresBit := by
  cases s with
  | scalar d => rfl
  | group d length row => exact absurd h hkind

/-! ## Bits as they are handed out -/

theorem numbered_assignBits (carry : FieldSpec → Option Nat → Field) {high : Nat}
    (hbit : ∀ s bit, (carry s bit).bit = bit) {next : Nat} {specs : List FieldSpec}
    (hdecl : ∀ s ∈ specs, ∀ bit, (carry s bit).decl.requiresBit = s.requiresBit)
    (hroom : next + Template.bitsNeeded specs ≤ high + 1) :
    Field.Numbered next high ((assignBits next specs).map fun (s, bit) => carry s bit) := by
  induction specs generalizing next with
  | nil => exact .nil
  | cons s specs ih =>
    obtain ⟨hs, hspecs⟩ := List.forall_mem_cons.1 hdecl
    rw [Template.bitsNeeded, List.countP_cons] at hroom
    rw [assignBits]
    split
    · next hrequires =>
      rw [if_pos hrequires] at hroom
      exact .cons (hbit s _) (by omega) (ih hspecs (by rw [Template.bitsNeeded]; omega))
    · next hrequires =>
      rw [if_neg hrequires] at hroom
      exact .cons_unnumbered ((hs none).trans (Bool.eq_false_iff.2 hrequires)) (ih hspecs hroom)

end FieldSpec

namespace Template

variable {t : Template}

theorem bitsNeeded_lt_of_validate (h : t.validate = .ok ()) : bitsNeeded t.fields < 56 := by
  unfold validate at h
  split at h
  · cases h
  · next hlt => exact Nat.not_le.1 hlt

theorem bitsNeeded_row_le {d : Decl} {length : FieldSpec} {row : List FieldSpec}
    (h : t.checkSpec (.group d length row) = .ok ()) : bitsNeeded row ≤ 56 := by
  unfold checkSpec at h
  obtain ⟨⟨⟩, -, h⟩ := Except.bind_eq_ok h
  dsimp only at h
  split at h
  · cases h
  · obtain ⟨⟨⟩, -, h⟩ := Except.bind_eq_ok h
    split at h
    · cases h
    · next hle => exact Nat.not_lt.1 hle

/-- What bears the bit of an item of the template requires one if the field was declared so. -/
theorem requiresBit_carrier {s : FieldSpec} (hs : t.checkSpec s = .ok ()) (hmade : s.Made)
    (bit : Option Nat) : (s.toItem bit).carrier.decl.requiresBit = s.requiresBit := by
  cases s with
  | scalar d => rfl
  | group d length row =>
    obtain ⟨hkind, -, -⟩ := checkSpec_group hs
    exact hmade.tellsRows.2.1.requiresBit (by rw [hkind]; decide)

theorem numbered_toMessage (h : t.validate = .ok ()) (hmade : ∀ s ∈ t.fields, s.Made) :
    Field.Numbered 1 55 (t.toMessage.items.map Item.carrier) := by
  rw [toMessage, List.map_map]
  refine FieldSpec.numbered_assignBits (fun s bit => (s.toItem bit).carrier)
    (fun s bit => ?_) (fun s hs bit => ?_) ?_
  · rw [Item.bit_carrier, FieldSpec.bit?_toItem]
  · exact requiresBit_carrier (checkSpec_of_validate h s hs) (hmade s hs) bit
  · have := bitsNeeded_lt_of_validate h
    omega

theorem numbered_row {d : Decl} {length : FieldSpec} {row : List FieldSpec}
    (h : t.checkSpec (.group d length row) = .ok ()) (hmade : (FieldSpec.group d length row).Made) :
    Field.Numbered 0 55 ((FieldSpec.assignBits 0 row).map fun (s, bit) => .fresh s.decl bit) := by
  obtain ⟨-, -, hrow⟩ := checkSpec_group h
  refine FieldSpec.numbered_assignBits (fun s bit => .fresh s.decl bit)
    (fun _ _ => rfl) (fun s hs _ => ?_) ?_
  · exact (hmade.tellsRows.2.2 s hs).requiresBit (hrow s hs).1
  · have := bitsNeeded_row_le h
    omega

end Template

/-! ## Messages -/

namespace Message

/-- No two fields of the message, nor of a row, get in each other's way, whatever they contain. -/
structure BitsApart (m : Message) : Prop where
  numbered : Field.Numbered 1 55 (m.items.map Item.carrier)
  numbered_row : ∀ g, .group g ∈ m.items → Field.Numbered 0 55 g.dictionary
  asksOwn : ∀ i ∈ m.items, i.AsksOwn
  asksOwn_row : ∀ g, .group g ∈ m.items → ∀ f ∈ g.dictionary, f.AsksOwn
  leavesAlone : m.items.Pairwise fun i j => i.LeavesAlone j ∧ j.LeavesAlone i
  leavesAlone_row : ∀ g, .group g ∈ m.items →
    g.dictionary.Pairwise fun f f' => f.LeavesAlone f' ∧ f'.LeavesAlone f
  encode_ne : ∀ (enc : Encoder) (id : UInt32), (enc.encode m).result ≠ .error (.pmapOverflow id)

variable {m : Message}

theorem bitsApart_of_numbered (hitems : Field.Numbered 1 55 (m.items.map Item.carrier))
    (hrows : ∀ g, .group g ∈ m.items → Field.Numbered 0 55 g.dictionary) : m.BitsApart where
  numbered := hitems
  numbered_row := hrows
  asksOwn i _ := i.asksOwn
  asksOwn_row _ _ f _ := f.asksOwn
  leavesAlone := by
    refine (List.pairwise_map.1 hitems.increasing).imp fun h => ?_
    exact h.leavesAlone.imp Item.leavesAlone_of_carrier Item.leavesAlone_of_carrier
  leavesAlone_row g hg := (hrows g hg).increasing.imp Field.Precedes.leavesAlone
  encode_ne enc id he := by
    have hwrite := congrArg Prod.fst (Encoder.encode_eq_error he).1
    rcases hall : Item.writeAll m.items (enc.start m) with ⟨written, items'⟩
    rw [write, hall] at hwrite
    obtain rfl : written = .error (.pmapOverflow id) := hwrite
    obtain ⟨front, i, back, map, _, _, i', hsplit, -, hi, -⟩ := Item.writeAll_eq_error hall
    have hmem : i ∈ m.items := by simp [hsplit]
    exact Item.write_ne_overflow hitems hrows hmem map _ (congrArg Prod.fst hi) id rfl

end Message

/-! ## Slots in use -/

theorem FieldSpec.bare_toItem (s : FieldSpec) (bit : Option Nat) :
    (s.toItem bit).bare = s.toItem bit := by
  cases s <;> rfl

theorem Template.bare_toMessage (t : Template) : t.toMessage.bare = t.toMessage := by
  simp only [toMessage, Message.bare, List.map_map, Message.mk.injEq, true_and]
  exact List.map_congr_left fun p _ => p.1.bare_toItem p.2

/-- Whatever has been done to the slots, each is one of a template once it is emptied. -/
theorem Messages.Handled.exists_template {set : TemplateSet} {ms : Messages} (h : Handled set ms)
    {m : Message} (hm : m ∈ ms) : ∃ t ∈ set.templates, m.reset.bare = t.toMessage := by
  have hmem : m.reset.bare ∈ set.messages.reset.map Message.bare := by
    rw [← h.keeps.reset]
    exact List.mem_map_of_mem (List.mem_map_of_mem hm)
  rw [set.reset_messages] at hmem
  obtain ⟨_, hfresh, heq⟩ := List.mem_map.1 hmem
  obtain ⟨t, ht, rfl⟩ := List.mem_map.1 hfresh
  exact ⟨t, ht, heq.symm.trans t.bare_toMessage⟩

/-! ## The law -/

theorem Item.frame_carrier_reset (i : Item) : i.reset.bare.carrier.frame = i.carrier.frame := by
  cases i <;> rfl

namespace TemplateSet

/--
A message of an accepted set, whatever is in it: emptied it is as the template has it. All its bits
are apart, and there is one for each of its fields that can come to need it.
-/
theorem bitsApart (set : TemplateSet) (hmade : ∀ t ∈ set.templates, ∀ s ∈ t.fields, s.Made)
    {t : Template} (ht : t ∈ set.templates) {m : Message} (hm : m.reset.bare = t.toMessage) :
    m.BitsApart := by
  have hvalid : t.validate = .ok () := ((checkFrom_eq_ok set.checkFrom_templates).1 t ht).1
  refine Message.bitsApart_of_numbered ?_ fun g hg => ?_
  · refine (Template.numbered_toMessage hvalid (hmade t ht)).of_frames ?_
    rw [← hm]
    simp only [Message.reset, Message.bare, List.map_map]
    exact List.map_congr_left fun i _ => (Item.frame_carrier_reset i).symm
  · have hmem : (Item.group g).reset.bare ∈ t.toMessage.items :=
      hm ▸ List.mem_map_of_mem (List.mem_map_of_mem hg)
    obtain ⟨⟨s, bit⟩, hp, heq⟩ := List.mem_map.1 hmem
    have hs := FieldSpec.mem_of_mem_assignBits hp
    cases s with
    | scalar d => cases heq
    | group d length row =>
      have hrow := Template.numbered_row (Template.checkSpec_of_validate hvalid _ hs)
        (hmade t ht _ hs)
      refine hrow.of_frames ?_
      have hdictionary :=
        congrArg (fun g : Group => g.dictionary.map Field.frame) (Item.group.inj heq)
      simp only [Group.reset, Group.bare, List.map_map] at hdictionary
      simp only [List.map_map]
      exact hdictionary.symm

open Decoder (quotes quote)
open FieldSpec (Made)

theorem bitsApart_quotes :
    ∃ m, (quotes.messages.modify 0 (·.fill (quote 1 (.assigned (.uint 10)))))[0]? = some m ∧
      m.BitsApart := by
  have hmade : ∀ t ∈ quotes.templates, ∀ s ∈ t.fields, s.Made := by
    have hentries : Made (.sequence { name := "Entries", id := 268, kind := .sequence }
        (.scalar { name := "NoEntries", id := 268, kind := .uint })
        [.scalar { name := "Size", id := 271, kind := .uint, op := .copy },
          .scalar { name := "Px", id := 270, kind := .int, op := .delta, presence := .optional }]) :=
      .sequence "Entries" 268 (.new .uint "NoEntries" 268) <| List.forall_mem_cons.2
        ⟨.withOperator (.new .uint "Size" 271) .copy,
          List.forall_mem_singleton.2 (.withOperator (.optional (.new .int "Px" 270)) .delta)⟩
    exact List.forall_mem_singleton.2 <| List.forall_mem_cons.2
      ⟨.withOperator (.new .uint "MsgSeqNum" 34) .increment, List.forall_mem_cons.2
        ⟨.withReset (.withOperator (.new .unicode "Venue" 207) .constant) (.bytes [88]),
          List.forall_mem_singleton.2 hentries⟩⟩
  have hhandled : Messages.Handled quotes _ := .fill .fresh 0 (quote 1 (.assigned (.uint 10)))
  refine ⟨_, rfl, ?_⟩
  obtain ⟨t, ht, hm⟩ := hhandled.exists_template (List.mem_of_getElem? (i := 0) rfl)
  exact quotes.bitsApart hmade ht hm

end TemplateSet

end MarketFeed
