import MarketFeed.Proofs.Group.Contract
import MarketFeed.Proofs.Stream.Renewal
import MarketFeed.Proofs.Template

/-!
# What a call comes to

The slots of an accepted set are formed, and stay so through every call to a decoder, whatever the
bytes, and through every way of giving up a message or resetting a slot, also in the middle of one:
`Decoder.Visited.formed`. Of such slots a call leaves less than a token behind when it runs dry, and
what it refuses is the declaration of a rowless field: `Decoder.decode_upheld`.
-/

namespace MarketFeed

open Progress (Upholds)

namespace Messages

/-- If the error refuses a declaration, it is that of a rowless field of one of the messages. -/
def Explain (ms : Messages) (e : DecodeError) : Prop :=
  e.refuses = true → ∃ m ∈ ms, ∃ f, Item.scalar f ∈ m.items ∧ f.IsRowless ∧
    e = .invalidOperator f.decl.id f.decl.op

theorem explain_ofBytes {ms : Messages} {e : DecodeError} (h : e.OfBytes) : ms.Explain e :=
  fun he => by rw [h] at he; cases he

theorem explain_of_mem {ms : Messages} {m : Message} (hm : m ∈ ms) {e : DecodeError}
    (h : Item.Explain m.items e) : ms.Explain e := fun he => ⟨m, hm, h he⟩

end Messages

/-! ## Attempts -/

namespace Decoder

variable {ms : Messages}

/-- All that a decoder holds is formed. -/
def Holding.Formed (s : Holding) : Prop := ∀ m ∈ s.2.1, m.Formed

theorem fill_upholds (h : ∀ m ∈ ms, m.Formed) (d : Decoder) (map : PresenceMap) (slot : Nat)
    (place : Place) (bytes : List UInt8) :
    Upholds Holding.Formed ms.Explain (d.fill ms map slot place bytes).progress := by
  cases hm : ms[slot]? with
  | none =>
    rw [progress_fill_none hm]
    exact .refused (by exact h) (Messages.explain_ofBytes (by rfl)) bytes
  | some m =>
    have hmem := List.mem_of_getElem? hm
    have hset {m' : Message} (hm' : m'.Formed) : ∀ m ∈ ms.set slot m', m.Formed := by
      intro m'' hmem''
      rcases List.mem_or_eq_of_mem_set hmem'' with hmem'' | rfl
      · exact h m'' hmem''
      · exact hm'
    rw [progress_fill hm]
    refine Upholds.andThen (((h m hmem).read_upholds map place bytes).mono fun e he =>
      Messages.explain_of_mem hmem he) (fun hs => hset hs) fun m' rest _ hm' => ?_
    exact .finished (by exact hset hm') rest

theorem readSlot_meets (d : Decoder) (ms : Messages) (map : PresenceMap) :
    (d.readSlot ms map).Meets (fun _ => True) maxTokenBytes := by
  unfold readSlot
  refine .ite (fun _ => ?_) fun _ => ?_
  · refine Read.Meets.atMost (.bind (n := 0) readUInt_meets fun id _ => ?_) (by decide)
    refine .ite (fun _ => ?_) fun _ => .fail rfl
    cases ms.slot? id.toUInt32 with
    | some slot => exact .pure trivial
    | none => exact .fail rfl
  · cases d.lastSlot with
    | some slot => exact .pure trivial
    | none => exact .fail rfl

theorem afterMap_upholds (h : ∀ m ∈ ms, m.Formed) (d : Decoder) (map : PresenceMap)
    (bytes : List UInt8) :
    Upholds Holding.Formed ms.Explain (d.afterMap ms map bytes).progress := by
  rw [congrFun (progress_afterMap d ms map) bytes]
  refine .afterToken (d.readSlot_meets ms map) h (fun _ => Messages.explain_ofBytes) ?_
  exact fun slot rest _ _ => fill_upholds h d map slot {} rest

theorem resumeFrom_upholds (h : ∀ m ∈ ms, m.Formed) (lastSlot : Option Nat) (n : Nat)
    (stage : Stage) (bytes : List UInt8) :
    Upholds Holding.Formed ms.Explain (resumeFrom (lastSlot, ms, n) stage bytes) := by
  cases stage with
  | filling map slot place => exact fill_upholds h _ map slot place bytes
  | mapped map => exact afterMap_upholds h _ map bytes
  | idle =>
    rw [progress_resume_idle]
    refine .afterToken (PresenceMap.read_meets.atMost (by decide)) h
      (fun _ => Messages.explain_ofBytes) fun map rest _ _ => ?_
    exact afterMap_upholds h _ map rest

/-! ## Calls -/

/-- What is true of a call to a decoder of the messages `ms`, whatever the buffer. -/
structure Upheld (ms : Messages) (buffer : List UInt8) (r : Decoding) : Prop where
  formed : ∀ m ∈ r.messages, m.Formed
  explained : ∀ e, r.result = .error (.garbled e) → ms.Explain e
  short : r.result = .error .incomplete → (buffer.drop r.consumed).length < maxTokenBytes

theorem decode_upheld (h : ∀ m ∈ ms, m.Formed) (d : Decoder) (buffer : List UInt8) :
    Upheld ms buffer (d.decode ms buffer) := by
  have hread := resumeFrom_upholds h d.lastSlot 0 d.stage buffer
  rw [decode_eq]
  generalize resumeFrom (d.lastSlot, ms, 0) d.stage buffer = p at hread ⊢
  obtain ⟨hstate, hgarbled, hdry⟩ := hread
  obtain ⟨s, ending, rest⟩ := p
  cases ending with
  | done => exact ⟨hstate, nofun, nofun⟩
  | garbled e =>
    refine ⟨hstate, fun e' he' => ?_, nofun⟩
    obtain rfl := DecodeFailure.garbled.inj (Except.error.inj he')
    exact hgarbled e rfl
  | dry stage =>
    refine ⟨hstate, nofun, fun _ => ?_⟩
    have hrest : rest.length < maxTokenBytes := hdry stage rfl
    simp only [decodingOf, List.length_drop]
    omega

end Decoder

/-! ## Slots of a set -/

theorem FieldSpec.toItem_formed {t : Template} {s : FieldSpec} (h : t.checkSpec s = .ok ())
    (bit : Option Nat) : (s.toItem bit).Formed := by
  cases s with
  | scalar d =>
    obtain ⟨⟨⟩, hdecl, -⟩ := Except.bind_eq_ok h
    exact ⟨fun hkind => Field.kinded_fresh (Template.valid_of_checkDecl hdecl hkind) bit,
      fun _ => rfl⟩
  | group d length row =>
    obtain ⟨hkind, hlength, hrow⟩ := Template.checkSpec_group h
    refine ⟨hkind, Field.kinded_fresh (Template.valid_of_checkDecl hlength ?_) bit, fun f hf => ?_,
      Nat.zero_le _, toItem_rectangular (.group d length row) bit⟩
    · rw [hkind]
      decide
    · obtain ⟨p, hp, rfl⟩ := List.mem_map.1 hf
      obtain ⟨hscalar, hdecl⟩ := hrow p.1 (mem_of_mem_assignBits hp)
      exact Field.kinded_fresh (Template.valid_of_checkDecl hdecl hscalar) p.2

theorem TemplateSet.formed_messages (set : TemplateSet) : ∀ m ∈ set.messages, m.Formed := by
  intro m hm
  obtain ⟨t, ht, rfl⟩ := List.mem_map.1 hm
  intro i hi
  obtain ⟨p, hp, rfl⟩ := List.mem_map.1 hi
  exact FieldSpec.toItem_formed (Template.checkSpec_of_validate
    ((checkFrom_eq_ok set.checkFrom_templates).1 t ht).1 p.1
    (FieldSpec.mem_of_mem_assignBits hp)) p.2

/-! ## Declarations -/

/-- The item has the declarations of the specification, whatever has been put into it. -/
def Item.DeclaredBy : FieldSpec → Item → Prop
  | .scalar d, scalar f => f.decl = d
  | .group d length row, group g =>
    g.head.decl = d ∧ g.length.decl = length.decl ∧
      g.dictionary.map Field.decl = row.map FieldSpec.decl
  | _, _ => False

/-- The message is one of the template, whatever has been put into it. -/
structure Message.DeclaredBy (t : Template) (m : Message) : Prop where
  id : m.id = t.id
  name : m.name = t.name
  resets : m.resets = t.resets
  items : List.Forall₂ Item.DeclaredBy t.fields m.items

namespace FieldSpec

theorem map_fst_assignBits (next : Nat) (specs : List FieldSpec) :
    (assignBits next specs).map Prod.fst = specs := by
  induction specs generalizing next with
  | nil => rfl
  | cons s specs ih =>
    simp only [assignBits]
    split <;> simp only [List.map_cons, ih]

theorem declaredBy_toItem (s : FieldSpec) (bit : Option Nat) : Item.DeclaredBy s (s.toItem bit) := by
  cases s with
  | scalar d => rfl
  | group d length row =>
    have hdecls := congrArg (List.map FieldSpec.decl) (map_fst_assignBits 0 row)
    refine ⟨rfl, rfl, Eq.trans ?_ hdecls⟩
    simp only [List.map_map]
    rfl

end FieldSpec

theorem Item.declaredBy_reset_iff {s : FieldSpec} {i : Item} :
    DeclaredBy s i.reset.bare ↔ DeclaredBy s i := by
  cases s <;> cases i <;> simp only [DeclaredBy, reset, bare, Group.reset, Group.bare, List.map_map]
    <;> rfl

theorem Template.declaredBy_toMessage (t : Template) : t.toMessage.DeclaredBy t where
  id := rfl
  name := rfl
  resets := rfl
  items := by
    rw [← FieldSpec.map_fst_assignBits 1 t.fields, toMessage, List.forall₂_map_left_iff,
      List.forall₂_map_right_iff]
    exact List.forall₂_same.2 fun p _ => p.1.declaredBy_toItem p.2

theorem Message.declaredBy_reset_iff {t : Template} {m : Message} :
    m.reset.bare.DeclaredBy t ↔ m.DeclaredBy t := by
  have hitems : List.Forall₂ Item.DeclaredBy t.fields m.reset.bare.items ↔
      List.Forall₂ Item.DeclaredBy t.fields m.items := by
    simp only [bare, reset, List.map_map, List.forall₂_map_right_iff, Function.comp_def,
      Item.declaredBy_reset_iff]
  exact ⟨fun h => ⟨h.id, h.name, h.resets, hitems.1 h.items⟩,
    fun h => ⟨h.id, h.name, h.resets, hitems.2 h.items⟩⟩

/-- The declarations outlive whatever is done to the slots. -/
theorem Messages.Keeps.declared {set : TemplateSet} {ms : Messages} (h : set.messages.Keeps ms) :
    List.Forall₂ (fun t m => m.DeclaredBy t) set.templates ms := by
  have hreset := h.reset
  rw [Messages.reset, Messages.reset, TemplateSet.messages, List.map_map, List.map_map,
    List.map_map] at hreset
  have hforall : List.Forall₂ (fun t m => m.DeclaredBy t) set.templates
      (ms.map (Message.bare ∘ Message.reset)) := by
    rw [hreset, List.forall₂_map_right_iff]
    exact List.forall₂_same.2 fun t _ => Message.declaredBy_reset_iff.2 t.declaredBy_toMessage
  rw [List.forall₂_map_right_iff] at hforall
  exact hforall.imp fun _ _ => Message.declaredBy_reset_iff.1

/-! ## Calls in any order -/

namespace Messages

/-- Resets one slot. -/
def resetAt (ms : Messages) (slot : Nat) : Messages := ms.modify slot Message.reset

theorem mem_resetAt {ms : Messages} {slot : Nat} {m : Message} (h : m ∈ ms.resetAt slot) :
    m ∈ ms ∨ ∃ m' ∈ ms, m = m'.reset := by
  obtain ⟨i, hi, rfl⟩ := List.mem_iff_getElem.1 h
  simp only [resetAt, List.getElem_modify]
  split
  · exact .inr ⟨_, List.getElem_mem _, rfl⟩
  · exact .inl (List.getElem_mem _)

theorem keeps_resetAt (ms : Messages) (slot : Nat) : ms.Keeps (ms.resetAt slot) :=
  ms.keeps_modify slot Message.keeps_reset

/-- What outlives the reset of any one slot outlives that of all of them. -/
theorem reset_of_resetAt {P : Messages → Prop}
    (h : ∀ ms slot, P ms → P (resetAt ms slot)) {ms : Messages} (hms : P ms) : P ms.reset := by
  have from_front (front back : Messages) (hback : P (front ++ back)) :
      P (front ++ back.map Message.reset) := by
    induction back generalizing front with
    | nil => exact hback
    | cons m back ih =>
      have hm := h _ front.length hback
      rw [resetAt, List.modify_eq_take_cons_drop (by simp)] at hm
      have hnext := ih (front ++ [m.reset]) (by simpa using hm)
      rwa [List.append_assoc] at hnext
  exact from_front [] ms hms

end Messages

namespace Decoder

/--
The decoders and slots that calls can lead to, in any order: messages may be given up, the decoder
and the slots reset, at any time and independently of each other.
-/
inductive Visited (set : TemplateSet) : Decoder → Messages → Prop
  | fresh : Visited set .fresh set.messages
  | decode {d : Decoder} {ms : Messages} (h : Visited set d ms) (buffer : List UInt8) :
      Visited set (d.decode ms buffer).decoder (d.decode ms buffer).messages
  | abandon {d : Decoder} {ms : Messages} (h : Visited set d ms) : Visited set d.abandon ms
  | reset {d : Decoder} {ms : Messages} (h : Visited set d ms) : Visited set .fresh ms
  | resetAt {d : Decoder} {ms : Messages} (h : Visited set d ms) (slot : Nat) :
      Visited set d (ms.resetAt slot)

variable {set : TemplateSet} {d : Decoder} {ms : Messages}

theorem Visited.formed (h : Visited set d ms) : ∀ m ∈ ms, m.Formed := by
  induction h with
  | fresh => exact set.formed_messages
  | decode _ buffer ih => exact (decode_upheld ih _ buffer).formed
  | abandon _ ih => exact ih
  | reset _ ih => exact ih
  | resetAt _ slot ih =>
    intro m hm
    rcases Messages.mem_resetAt hm with hmem | ⟨m, hmem, rfl⟩
    · exact ih m hmem
    · exact (ih m hmem).reset

theorem Visited.keeps (h : Visited set d ms) : set.messages.Keeps ms := by
  induction h with
  | fresh => exact set.messages.keeps_refl
  | decode _ buffer ih => exact ih.trans (keeps_decode _ _ buffer)
  | abandon _ ih => exact ih
  | reset _ ih => exact ih
  | resetAt _ slot ih => exact ih.trans (Messages.keeps_resetAt _ slot)

end Decoder

end MarketFeed
