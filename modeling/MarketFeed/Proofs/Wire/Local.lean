import MarketFeed.Field.Decode

/-!
# Reads are local

How a read ends is settled by the bytes that it uses: whatever stands behind them is handed back
untouched, and a read that has run dry says nothing about the bytes still to come. This is shown of
every token, from the single byte up to a whole field.
-/

namespace MarketFeed

/-- The outcome of a read is settled by the bytes that it uses. -/
structure Read.Local {α : Type} (read : Read α) : Prop where
  done : ∀ {bytes a rest}, read bytes = .done a rest →
    ∃ used, used ++ rest = bytes ∧ ∀ more, read (used ++ more) = .done a more
  garbled : ∀ {bytes e rest}, read bytes = .garbled e rest →
    ∃ used, used ++ rest = bytes ∧ ∀ more, read (used ++ more) = .garbled e more

namespace Read.Local

variable {α β : Type}

/-- A read that has run dry would have done so on less. -/
theorem dry_prefix {read : Read α} (h : read.Local) {bytes front : List UInt8}
    (hd : read bytes = .dry) (hp : front <+: bytes) : read front = .dry := by
  obtain ⟨back, rfl⟩ := hp
  cases hf : read front with
  | dry => rfl
  | done a rest =>
    obtain ⟨used, rfl, hmore⟩ := h.done hf
    rw [List.append_assoc, hmore] at hd
    cases hd
  | garbled e rest =>
    obtain ⟨used, rfl, hmore⟩ := h.garbled hf
    rw [List.append_assoc, hmore] at hd
    cases hd

/-! ## Combinators -/

theorem pure (a : α) : (Pure.pure a : Read α).Local where
  done h := by
    obtain ⟨rfl, rfl⟩ := Outcome.done.inj h
    exact ⟨[], rfl, fun _ => rfl⟩
  garbled h := by cases h

theorem fail (e : DecodeError) : (Read.fail e : Read α).Local where
  done h := by cases h
  garbled h := by
    obtain ⟨rfl, rfl⟩ := Outcome.garbled.inj h
    exact ⟨[], rfl, fun _ => rfl⟩

theorem ofExcept (x : Except DecodeError α) : (Read.ofExcept x).Local := by
  cases x with
  | ok a => exact pure a
  | error e => exact fail e

/-- What two reads in a row use is what the first uses, followed by what the second uses. -/
theorem bind {read : Read α} {next : α → Read β} (hr : read.Local) (hn : ∀ a, (next a).Local) :
    (read >>= next).Local where
  done {bytes b rest} h := by
    simp only [Bind.bind, Read.bind] at h ⊢
    cases hread : read bytes with
    | dry => simp [hread] at h
    | garbled e rest => simp [hread] at h
    | done a middle =>
      simp only [hread] at h
      obtain ⟨used, rfl, hused⟩ := hr.done hread
      obtain ⟨used', rfl, hused'⟩ := (hn a).done h
      exact ⟨used ++ used', by simp, fun more => by simp [hused, hused']⟩
  garbled {bytes e rest} h := by
    simp only [Bind.bind, Read.bind] at h ⊢
    cases hread : read bytes with
    | dry => simp [hread] at h
    | garbled e' rest' =>
      simp only [hread, Outcome.garbled.injEq] at h
      obtain ⟨rfl, rfl⟩ := h
      obtain ⟨used, rfl, hused⟩ := hr.garbled hread
      exact ⟨used, rfl, fun more => by simp [hused]⟩
    | done a middle =>
      simp only [hread] at h
      obtain ⟨used, rfl, hused⟩ := hr.done hread
      obtain ⟨used', rfl, hused'⟩ := (hn a).garbled h
      exact ⟨used ++ used', by simp, fun more => by simp [hused, hused']⟩

theorem ite {p : Prop} [Decidable p] {read read' : Read α} (h : read.Local) (h' : read'.Local) :
    (if p then read else read').Local := by
  split
  · exact h
  · exact h'

theorem byte : Read.byte.Local where
  done {bytes b rest} h := by
    cases bytes with
    | nil => cases h
    | cons c bytes =>
      obtain ⟨rfl, rfl⟩ := Outcome.done.inj h
      exact ⟨[c], rfl, fun _ => rfl⟩
  garbled {bytes e rest} h := by
    cases bytes <;> cases h

theorem take (n : Nat) : (Read.take n).Local where
  done {bytes taken rest} h := by
    unfold Read.take at h ⊢
    split at h
    · rename_i hn
      obtain ⟨rfl, rfl⟩ := Outcome.done.inj h
      refine ⟨bytes.take n, List.take_append_drop n bytes, fun more => ?_⟩
      have hlen : (bytes.take n).length = n := List.length_take_of_le hn
      rw [if_pos (by rw [List.length_append]; omega), List.take_left' hlen, List.drop_left' hlen]
    · cases h
  garbled {bytes e rest} h := by
    unfold Read.take at h
    split at h <;> cases h

end Read.Local

/-! ## Runs -/

theorem readUIntFrom_succ (budget value : Nat) :
    readUIntFrom (budget + 1) value = (do
      let b ← Read.byte
      if 0x200000000000000 ≤ value then Read.fail .integerOverflow
      else if isStop b then pure (.ofNat (value * 128 + groupOf b))
      else readUIntFrom budget (value * 128 + groupOf b)) := by
  funext bytes
  cases bytes with
  | nil => rfl
  | cons b rest =>
    simp only [readUIntFrom, Bind.bind, Read.bind, Read.byte]
    split
    · rfl
    · split <;> rfl

theorem readUIntFrom_local (budget value : Nat) : (readUIntFrom budget value).Local := by
  induction budget generalizing value with
  | zero => exact .fail .integerOverflow
  | succ budget ih =>
    rw [readUIntFrom_succ]
    exact .bind .byte fun b => .ite (.fail _) (.ite (.pure _) (ih _))

theorem readUInt_local : readUInt.Local := readUIntFrom_local _ _

theorem readIntFrom_succ (budget : Nat) (value : Int) :
    readIntFrom (budget + 1) value = (do
      let b ← Read.byte
      if value < -0x100000000000000 ∨ 0x100000000000000 ≤ value then Read.fail .integerOverflow
      else if isStop b then pure (.ofInt (value * 128 + groupOf b))
      else readIntFrom budget (value * 128 + groupOf b)) := by
  funext bytes
  cases bytes with
  | nil => rfl
  | cons b rest =>
    simp only [readIntFrom, Bind.bind, Read.bind, Read.byte]
    split
    · rfl
    · split <;> rfl

theorem readIntFrom_local (budget : Nat) (value : Int) : (readIntFrom budget value).Local := by
  induction budget generalizing value with
  | zero => exact .fail .integerOverflow
  | succ budget ih =>
    rw [readIntFrom_succ]
    exact .bind .byte fun b => .ite (.fail _) (.ite (.pure _) (ih _))

/-- The sign that a first byte gives to what follows. -/
def signOf (b : UInt8) : Int := if 64 ≤ groupOf b then -1 else 0

/-- The first byte, which tells the sign, is the first one to be used as well. -/
theorem readInt_eq :
    readInt = (do
      let b ← Read.byte
      if isStop b then pure (.ofInt (signOf b * 128 + groupOf b))
      else readIntFrom 9 (signOf b * 128 + groupOf b)) := by
  funext bytes
  cases bytes with
  | nil => rfl
  | cons b rest =>
    have hs : ¬(signOf b < -0x100000000000000 ∨ 0x100000000000000 ≤ signOf b) := by
      unfold signOf; split <;> decide
    have hr : readInt (b :: rest) = readIntFrom (9 + 1) (signOf b) (b :: rest) := rfl
    rw [hr, readIntFrom_succ]
    simp only [Bind.bind, Read.bind, Read.byte, if_neg hs]

theorem readInt_local : readInt.Local := by
  rw [readInt_eq]
  exact .bind .byte fun b => .ite (.pure _) (readIntFrom_local _ _)

theorem readTextFrom_succ (budget : Nat) :
    readTextFrom (budget + 1) = (do
      let b ← Read.byte
      if isStop b then return [b &&& 127]
      else return (b &&& 127) :: (← readTextFrom budget)) := by
  funext bytes
  cases bytes with
  | nil => rfl
  | cons b rest =>
    simp only [readTextFrom, Bind.bind, Read.bind, Read.byte]
    split
    · rfl
    · cases h : readTextFrom budget rest with
      | done run rest' =>
        simp only [Read.bind, h]
        rfl
      | dry => simp only [Read.bind, h]
      | garbled e rest' => simp only [Read.bind, h]

theorem readTextFrom_local (budget : Nat) : (readTextFrom budget).Local := by
  induction budget with
  | zero => exact .fail _
  | succ budget ih =>
    rw [readTextFrom_succ]
    exact .bind .byte fun b => .ite (.pure _) (.bind ih fun _ => .pure _)

theorem readText_local : readText.Local := readTextFrom_local _

namespace PresenceMap

theorem readGroups_succ (budget : Nat) :
    readGroups (budget + 1) = (do
      let b ← Read.byte
      if isStop b then
        return ⟨[BitVec.ofNat 7 b.toNat], Nat.succ_le_succ (Nat.zero_le budget)⟩
      else
        let gs ← readGroups budget
        return ⟨BitVec.ofNat 7 b.toNat :: gs.1, Nat.succ_le_succ gs.2⟩) := by
  funext bytes
  cases bytes with
  | nil => rfl
  | cons b rest =>
    simp only [readGroups, Bind.bind, Read.bind, Read.byte]
    split
    · rfl
    · cases h : readGroups budget rest with
      | done run rest' =>
        simp only [Read.bind, h]
        rfl
      | dry => simp only [Read.bind, h]
      | garbled e rest' => simp only [Read.bind, h]

theorem readGroups_local (budget : Nat) : (readGroups budget).Local := by
  induction budget with
  | zero => exact .fail _
  | succ budget ih =>
    rw [readGroups_succ]
    exact .bind .byte fun b => .ite (.pure _) (.bind ih fun _ => .pure _)

theorem read_local : read.Local := .bind (readGroups_local _) fun _ => .pure _

end PresenceMap

/-! ## Raw values -/

theorem Read.nullableInt_local (optional : Bool) : (Read.nullableInt optional).Local :=
  .bind readInt_local fun _ => .pure _

theorem Read.nullableUInt_local (optional : Bool) : (Read.nullableUInt optional).Local :=
  .bind readUInt_local fun _ => .pure _

theorem Read.nullablePair_local (optional : Bool) : (Read.nullablePair optional).Local := by
  refine .bind (Read.nullableInt_local optional) fun a => ?_
  cases a with
  | none => exact .pure _
  | some a => exact .bind readInt_local fun _ => .pure _

theorem readVector_local (optional unicode : Bool) : (readVector optional unicode).Local := by
  refine .bind (Read.nullableUInt_local optional) fun length => ?_
  cases length with
  | none => exact .pure _
  | some length => exact .ite (.fail _) (.bind (.take _) fun _ => .ite (.fail _) (.pure _))

theorem Decl.readValue_local (d : Decl) : d.readValue.Local := by
  unfold Decl.readValue
  cases d.kind with
  | int => exact .bind (Read.nullableInt_local _) fun _ => .pure _
  | uint => exact .bind (Read.nullableUInt_local _) fun _ => .pure _
  | ascii => exact .bind readText_local fun _ => .pure _
  | unicode => exact .bind (readVector_local _ _) fun _ => .pure _
  | bytes => exact .bind (readVector_local _ _) fun _ => .pure _
  | sequence => exact .fail _
  | decimal =>
    refine .bind (Read.nullablePair_local _) fun pair => ?_
    cases pair with
    | none => exact .pure _
    | some pair => exact .bind (.ofExcept _) fun _ => .pure _

/-! ## Fields -/

namespace Field

theorem readDelta_local (f : Field) : f.readDelta.Local := by
  unfold readDelta
  split
  case h_1 | h_2 =>
    refine .bind (Read.nullableInt_local _) fun delta => ?_
    cases delta with
    | none => exact .pure _
    | some delta => exact .bind (.ofExcept _) fun _ => .pure _
  case h_3 =>
    refine .bind (Read.nullablePair_local _) fun pair => ?_
    cases pair with
    | none => exact .pure _
    | some pair => exact .bind (.ofExcept _) fun _ => .pure _
  case h_4 => exact .fail _

theorem read_local (f : Field) (map : PresenceMap) : (f.read map).Local := by
  have kept : (if f.isMarked map then do return f.receiveKept (← f.decl.readValue)
      else Read.ofExcept f.inherit : Read Field).Local :=
    .ite (.bind f.decl.readValue_local fun _ => .pure _) (.ofExcept _)
  unfold read
  refine .ite ?_ (.fail _)
  cases f.decl.op with
  | none => exact .bind f.decl.readValue_local fun _ => .pure _
  | copy => exact kept
  | increment => exact kept
  | delta => exact .bind f.readDelta_local fun _ => .pure _
  | constant => exact .ofExcept _

end Field

end MarketFeed
