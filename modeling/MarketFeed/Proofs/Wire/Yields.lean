import MarketFeed.Field.Decode

/-!
# What reads yield

A property of every value that a read can end with. Put together, such properties tell what a field
keeps while it is read: its declaration and its presence bit.
-/

namespace MarketFeed

/-- Every value that the read ends with has the property. -/
structure Read.Yields {α : Type} (read : Read α) (p : α → Prop) : Prop where
  of_done : ∀ {bytes a rest}, read bytes = .done a rest → p a

namespace Read.Yields

variable {α β : Type} {p : α → Prop} {q : β → Prop}

theorem pure {a : α} (h : p a) : (Pure.pure a : Read α).Yields p where
  of_done hb := by
    obtain ⟨rfl, -⟩ := Outcome.done.inj hb
    exact h

theorem fail (e : DecodeError) : (Read.fail e : Read α).Yields p where
  of_done h := by cases h

theorem ofExcept {x : Except DecodeError α} (h : ∀ a, x = .ok a → p a) :
    (Read.ofExcept x).Yields p := by
  cases x with
  | ok a => exact pure (h a rfl)
  | error e => exact fail e

theorem bind {read : Read α} {next : α → Read β} (hr : read.Yields p)
    (hn : ∀ a, p a → (next a).Yields q) : (read >>= next).Yields q where
  of_done {bytes b rest} h := by
    simp only [Bind.bind, Read.bind] at h
    cases hread : read bytes with
    | dry => simp [hread] at h
    | garbled e rest => simp [hread] at h
    | done a middle =>
      rw [hread] at h
      exact (hn a (hr.of_done hread)).of_done h

theorem trivial (read : Read α) : read.Yields fun _ => True where
  of_done _ := True.intro

theorem ite {c : Prop} [Decidable c] {read read' : Read α} (h : c → read.Yields p)
    (h' : ¬c → read'.Yields p) : (if c then read else read').Yields p := by
  split
  · exact h ‹_›
  · exact h' ‹_›

end Read.Yields

namespace Field

/-- What no message changes about a field: its declaration and its presence bit. -/
def frame (f : Field) : Decl × Option Nat := (f.decl, f.bit)

theorem frame_receive (f : Field) (v : Option Value) : (f.receive v).frame = f.frame := by
  cases v <;> rfl

theorem frame_receiveKept (f : Field) (v : Option Value) : (f.receiveKept v).frame = f.frame := by
  cases v <;> rfl

theorem frame_receiveDelta (f : Field) (v : Option Value) :
    (f.receiveDelta v).frame = f.frame := by
  cases v <;> rfl

theorem frame_inherit {f f' : Field} (h : f.inherit = .ok f') : f'.frame = f.frame := by
  unfold inherit at h
  repeat' split at h
  all_goals first
    | cases h; done
    | obtain rfl := Except.ok.inj h; rfl

theorem frame_takeConstant {f f' : Field} {map : PresenceMap} (h : f.takeConstant map = .ok f') :
    f'.frame = f.frame := by
  unfold takeConstant at h
  repeat' split at h
  all_goals first
    | cases h; done
    | obtain rfl := Except.ok.inj h; rfl

/-- Reading a field changes its entries only. -/
theorem read_yields_frame (f : Field) (map : PresenceMap) :
    (f.read map).Yields (·.frame = f.frame) := by
  have kept : (if f.isMarked map then do return f.receiveKept (← f.decl.readValue)
      else Read.ofExcept f.inherit : Read Field).Yields (·.frame = f.frame) :=
    .ite (fun _ => .bind (.trivial _) fun v _ => .pure (f.frame_receiveKept v))
      fun _ => .ofExcept fun _ => frame_inherit
  unfold read
  refine .ite (fun _ => ?_) fun _ => .fail _
  cases f.decl.op with
  | none => exact .bind (.trivial _) fun v _ => .pure (f.frame_receive v)
  | copy => exact kept
  | increment => exact kept
  | delta => exact .bind (.trivial _) fun v _ => .pure (f.frame_receiveDelta v)
  | constant => exact .ofExcept fun _ => frame_takeConstant

end Field

end MarketFeed
