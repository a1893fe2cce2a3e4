import MarketFeed.Proofs.Message.Agreement
import MarketFeed.Template
import Mathlib.Data.List.Forall2

/-!
# What an accepted set promises

The checks that a set of templates has passed are what makes its messages sound: bits are handed out
in order, constants have values, lengths are unsigned, and no two messages share an id.
-/

namespace MarketFeed

namespace Template

variable {t : Template}

theorem hasConstant_of_checkDecl {d : Decl} (h : t.checkDecl d = .ok ()) : d.HasConstant := by
  intro hkind hop
  unfold checkDecl at h
  rw [if_neg hkind] at h
  split at h
  · cases h
  · cases hinit : d.init with
    | some v => rfl
    | none =>
      simp only [hinit] at h
      cases h

theorem valid_of_checkDecl {d : Decl} (h : t.checkDecl d = .ok ()) (hkind : d.kind ≠ .sequence) :
    d.Valid := by
  unfold checkDecl at h
  rw [if_neg hkind] at h
  split at h
  · cases h
  · next hallowed =>
    refine ⟨by simpa using hallowed, fun v hv => ?_⟩
    rw [hv] at h
    dsimp only at h
    split at h
    · assumption
    · cases h

theorem forM_eq_ok {α ε : Type} {check : α → Except ε Unit} {xs : List α}
    (h : xs.forM check = .ok ()) : ∀ x ∈ xs, check x = .ok () := by
  induction xs with
  | nil => simp
  | cons x xs ih =>
    rw [List.forM_eq_forM, List.forM_cons] at h
    obtain ⟨⟨⟩, hx, hxs⟩ := Except.bind_eq_ok h
    intro y hy
    rcases List.mem_cons.1 hy with rfl | hy
    · exact hx
    · exact ih hxs y hy

/-- What a group is checked for, in its length and in every field of its rows. -/
theorem checkSpec_group {d : Decl} {length : FieldSpec} {row : List FieldSpec}
    (h : t.checkSpec (.group d length row) = .ok ()) :
    length.decl.kind = .uint ∧ t.checkDecl length.decl = .ok () ∧
      ∀ s ∈ row, s.decl.kind ≠ .sequence ∧ t.checkDecl s.decl = .ok () := by
  unfold checkSpec at h
  obtain ⟨⟨⟩, -, h⟩ := Except.bind_eq_ok h
  dsimp only at h
  split at h
  · cases h
  · next hkind =>
    obtain ⟨⟨⟩, hlength, h⟩ := Except.bind_eq_ok h
    split at h
    · cases h
    · obtain ⟨⟨⟩, -, h⟩ := Except.bind_eq_ok h
      refine ⟨by simpa using hkind, hlength, fun s hs => ?_⟩
      have hcheck := forM_eq_ok h s hs
      unfold checkRowField at hcheck
      split at hcheck
      · cases hcheck
      · next hscalar => exact ⟨hscalar, hcheck⟩

theorem checkSpec_of_validate (h : t.validate = .ok ()) :
    ∀ s ∈ t.fields, t.checkSpec s = .ok () := by
  unfold validate at h
  split at h
  · cases h
  · obtain ⟨⟨⟩, -, h⟩ := Except.bind_eq_ok h
    exact forM_eq_ok h

end Template

namespace FieldSpec

theorem bitsFrom_assignBits (next : Nat) (specs : List FieldSpec) :
    BitsFrom next ((assignBits next specs).map Prod.snd) := by
  induction specs generalizing next with
  | nil => trivial
  | cons s specs ih =>
    simp only [assignBits]
    split
    · exact ⟨Nat.le_refl _, ih (next + 1)⟩
    · exact ih next

theorem mem_of_mem_assignBits {next : Nat} {specs : List FieldSpec} {p : FieldSpec × Option Nat}
    (h : p ∈ assignBits next specs) : p.1 ∈ specs := by
  induction specs generalizing next with
  | nil => simp [assignBits] at h
  | cons s specs ih =>
    simp only [assignBits] at h
    split at h
    all_goals
      rcases List.mem_cons.1 h with rfl | h
      · simp
      · exact List.mem_cons_of_mem _ (ih h)

theorem bit?_toItem (s : FieldSpec) (bit : Option Nat) : (s.toItem bit).bit? = bit := by
  cases s <;> rfl

theorem toItem_sound {t : Template} {s : FieldSpec} (h : t.checkSpec s = .ok ())
    (bit : Option Nat) : (s.toItem bit).Sound := by
  cases s with
  | scalar d =>
    obtain ⟨⟨⟩, hdecl, -⟩ := Except.bind_eq_ok h
    exact Template.hasConstant_of_checkDecl hdecl
  | group d length row =>
    obtain ⟨hkind, hlength, hrow⟩ := Template.checkSpec_group h
    refine ⟨⟨hkind, Template.hasConstant_of_checkDecl hlength, ?_, ?_⟩,
      by simp [Group.Rectangular], rfl⟩
    · intro f hf
      obtain ⟨p, hp, rfl⟩ := List.mem_map.1 hf
      exact Template.hasConstant_of_checkDecl (hrow p.1 (mem_of_mem_assignBits hp)).2
    · have := bitsFrom_assignBits 0 row
      rw [List.map_map]
      exact this

theorem toItem_agrees (s : FieldSpec) (bit : Option Nat) :
    (s.toItem bit).Agrees (s.toItem bit) := by
  cases s with
  | scalar d => exact .refl _
  | group d length row => exact ⟨.refl _, .refl _, List.forall₂_same.2 fun f _ => .refl f⟩

theorem toItem_rectangular (s : FieldSpec) (bit : Option Nat) : (s.toItem bit).Rectangular := by
  cases s with
  | scalar d => trivial
  | group d length row => simp [Item.Rectangular, toItem, Group.Rectangular]

theorem reset_toItem (s : FieldSpec) (bit : Option Nat) : (s.toItem bit).reset = s.toItem bit := by
  cases s with
  | scalar d => rfl
  | group d length row =>
    simp only [toItem, Item.reset, Group.reset, List.map_map]
    rfl

end FieldSpec

namespace Template

variable {t : Template}

theorem toMessage_sound (h : t.validate = .ok ()) : t.toMessage.Sound := by
  refine ⟨fun i hi => ?_, ?_⟩
  · obtain ⟨p, hp, rfl⟩ := List.mem_map.1 hi
    exact FieldSpec.toItem_sound
      (checkSpec_of_validate h p.1 (FieldSpec.mem_of_mem_assignBits hp)) p.2
  · have := FieldSpec.bitsFrom_assignBits 1 t.fields
    simpa [toMessage, Function.comp_def, FieldSpec.bit?_toItem] using this

theorem toMessage_agrees (t : Template) : t.toMessage.Agrees t.toMessage := by
  refine ⟨rfl, rfl, List.forall₂_same.2 fun i hi => ?_⟩
  obtain ⟨p, -, rfl⟩ := List.mem_map.1 hi
  exact p.1.toItem_agrees p.2

theorem toMessage_rectangular (t : Template) : t.toMessage.Rectangular := by
  intro i hi
  obtain ⟨p, -, rfl⟩ := List.mem_map.1 hi
  exact p.1.toItem_rectangular p.2

theorem reset_toMessage (t : Template) : t.toMessage.reset = t.toMessage := by
  simp only [toMessage, Message.reset, List.map_map, Message.mk.injEq, true_and]
  exact List.map_congr_left fun p _ => p.1.reset_toItem p.2

end Template

namespace TemplateSet

theorem checkFrom_eq_ok {seen : List UInt32} {ts : List Template} (h : checkFrom seen ts = .ok ()) :
    (∀ t ∈ ts, t.validate = .ok () ∧ t.id ∉ seen) ∧ (ts.map Template.id).Nodup := by
  induction ts generalizing seen with
  | nil => simp
  | cons t ts ih =>
    unfold checkFrom at h
    obtain ⟨⟨⟩, hvalid, h⟩ := Except.bind_eq_ok h
    split at h
    · cases h
    · next hseen =>
      obtain ⟨hall, hnodup⟩ := ih h
      rw [Bool.not_eq_true, List.contains_eq_mem, decide_eq_false_iff_not] at hseen
      refine ⟨fun t' ht' => ?_, ?_⟩
      · rcases List.mem_cons.1 ht' with rfl | ht'
        · exact ⟨hvalid, hseen⟩
        · exact ⟨(hall t' ht').1, fun hmem => (hall t' ht').2 (List.mem_cons_of_mem _ hmem)⟩
      · rw [List.map_cons, List.nodup_cons]
        refine ⟨fun hmem => ?_, hnodup⟩
        obtain ⟨t', ht', heq⟩ := List.mem_map.1 hmem
        exact (hall t' ht').2 (by simp [heq])

variable (set : TemplateSet)

theorem checkFrom_templates : checkFrom [] set.templates = .ok () := by
  have h := set.accepted
  unfold check at h
  split at h
  · cases h
  · exact h

theorem sound_messages : ∀ m ∈ set.messages, m.Sound := by
  intro m hm
  obtain ⟨t, ht, rfl⟩ := List.mem_map.1 hm
  exact Template.toMessage_sound ((checkFrom_eq_ok set.checkFrom_templates).1 t ht).1

theorem agrees_messages : List.Forall₂ Message.Agrees set.messages set.messages := by
  refine List.forall₂_same.2 fun m hm => ?_
  obtain ⟨t, -, rfl⟩ := List.mem_map.1 hm
  exact t.toMessage_agrees

theorem rectangular_messages : ∀ m ∈ set.messages, m.Rectangular := by
  intro m hm
  obtain ⟨t, -, rfl⟩ := List.mem_map.1 hm
  exact t.toMessage_rectangular

/-- Messages that nothing has been read into are as a reset would leave them. -/
theorem reset_messages : set.messages.reset = set.messages := by
  simp only [messages, Messages.reset, List.map_map]
  exact List.map_congr_left fun t _ => t.reset_toMessage

theorem nodup_messages : (set.messages.map Message.id).Nodup := by
  have := (checkFrom_eq_ok set.checkFrom_templates).2
  simpa [messages, Template.toMessage, Function.comp_def] using this

end TemplateSet

end MarketFeed
