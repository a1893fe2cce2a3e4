import MarketFeed.Proofs.Wire.Local

/-!
# What a token comes to

`Read.Meets` is the contract of a token: a value with some property, from a bounded number of bytes;
fewer bytes than that if it runs dry; and an error only if the bytes are at fault. Errors that speak
of a declaration instead are the ones that `DecodeError.refuses` tells apart. The bound is exact for
every token: a length prefix takes up to ten bytes, what it announces up to 1024 more.
-/

namespace MarketFeed

/-- Whether the error is about how a field was declared, whatever bytes there are. -/
def DecodeError.refuses : DecodeError → Bool
  | invalidOperator _ _ | nestedSequence => true
  | _ => false

/--
A value that the read ends with has the property and took at most `n` bytes; it runs dry on fewer
than `n` bytes only, and is garbled for no fault of a declaration.
-/
structure Read.Meets {α : Type} (read : Read α) (p : α → Prop) (n : Nat) : Prop where
  done : ∀ {bytes a rest}, read bytes = .done a rest → p a ∧ bytes.length ≤ rest.length + n
  dry : ∀ {bytes}, read bytes = .dry → bytes.length < n
  garbled : ∀ {bytes e rest}, read bytes = .garbled e rest → e.refuses = false

namespace Read.Meets

variable {α β : Type} {p p' : α → Prop} {q : β → Prop} {read read' : Read α} {m n : Nat}

theorem atMost (h : read.Meets p m) (hmn : m ≤ n) : read.Meets p n where
  done hd := ⟨(h.done hd).1, Nat.le_trans (h.done hd).2 (Nat.add_le_add_left hmn _)⟩
  dry hd := Nat.lt_of_lt_of_le (h.dry hd) hmn
  garbled := h.garbled

theorem pure {a : α} (h : p a) : (Pure.pure a : Read α).Meets p n where
  done hd := by
    obtain ⟨rfl, rfl⟩ := Outcome.done.inj hd
    exact ⟨h, Nat.le_add_right _ n⟩
  dry hd := by cases hd
  garbled hg := by cases hg

theorem fail {e : DecodeError} (he : e.refuses = false) : (Read.fail e : Read α).Meets p n where
  done hd := by cases hd
  dry hd := by cases hd
  garbled hg := by
    obtain ⟨rfl, -⟩ := Outcome.garbled.inj hg
    exact he

theorem ofExcept {x : Except DecodeError α} (hok : ∀ a, x = .ok a → p a)
    (herror : ∀ e, x = .error e → e.refuses = false) : (Read.ofExcept x).Meets p n := by
  cases x with
  | ok a => exact pure (hok a rfl)
  | error e => exact fail (herror e rfl)

/-- Two reads in a row take as many bytes as both may take. -/
theorem bind {next : α → Read β} (hr : read.Meets p m) (hn : ∀ a, p a → (next a).Meets q n) :
    (read >>= next).Meets q (m + n) where
  done {bytes b rest} h := by
    simp only [Bind.bind, Read.bind] at h
    cases hread : read bytes with
    | dry => simp [hread] at h
    | garbled e rest => simp [hread] at h
    | done a middle =>
      rw [hread] at h
      obtain ⟨ha, hlength⟩ := hr.done hread
      obtain ⟨hb, hlength'⟩ := (hn a ha).done h
      exact ⟨hb, by omega⟩
  dry {bytes} h := by
    simp only [Bind.bind, Read.bind] at h
    cases hread : read bytes with
    | garbled e rest => simp [hread] at h
    | dry => exact Nat.lt_add_right n (hr.dry hread)
    | done a middle =>
      rw [hread] at h
      obtain ⟨ha, hlength⟩ := hr.done hread
      have := (hn a ha).dry h
      omega
  garbled {bytes e rest} h := by
    simp only [Bind.bind, Read.bind] at h
    cases hread : read bytes with
    | dry => simp [hread] at h
    | garbled e' rest' =>
      simp only [hread, Outcome.garbled.injEq] at h
      obtain ⟨rfl, -⟩ := h
      exact hr.garbled hread
    | done a middle =>
      rw [hread] at h
      exact (hn a (hr.done hread).1).garbled h

theorem map {f : α → β} (hr : read.Meets p n) (hf : ∀ a, p a → q (f a)) :
    (read >>= fun a => Pure.pure (f a)).Meets q n :=
  hr.bind fun a ha => pure (n := 0) (hf a ha)

theorem ite {c : Prop} [Decidable c] (h : c → read.Meets p n) (h' : ¬c → read'.Meets p n) :
    (if c then read else read').Meets p n := by
  split
  · exact h ‹_›
  · exact h' ‹_›

theorem byte : Read.byte.Meets (fun _ => True) 1 where
  done {bytes b rest} h := by
    cases bytes with
    | nil => cases h
    | cons c bytes =>
      obtain ⟨rfl, rfl⟩ := Outcome.done.inj h
      exact ⟨trivial, Nat.le_refl _⟩
  dry {bytes} h := by
    cases bytes with
    | nil => exact Nat.one_pos
    | cons b bytes => cases h
  garbled {bytes e rest} h := by
    cases bytes <;> cases h

theorem behindByte {next : UInt8 → Read β} (hn : ∀ b, (next b).Meets q n) :
    (Read.byte >>= next).Meets q (n + 1) :=
  (byte.bind fun b _ => hn b).atMost (Nat.le_of_eq (Nat.add_comm 1 n))

theorem take (k : Nat) : (Read.take k).Meets (fun _ => True) k where
  done {bytes taken rest} h := by
    unfold Read.take at h
    split at h
    · obtain ⟨rfl, rfl⟩ := Outcome.done.inj h
      refine ⟨trivial, ?_⟩
      rw [List.length_drop]
      omega
    · cases h
  dry {bytes} h := by
    unfold Read.take at h
    split at h
    · cases h
    · omega
  garbled {bytes e rest} h := by
    unfold Read.take at h
    split at h <;> cases h

end Read.Meets

/-! ## Runs -/

theorem readUIntFrom_meets (budget value : Nat) :
    (readUIntFrom budget value).Meets (fun _ => True) budget := by
  induction budget generalizing value with
  | zero => exact .fail rfl
  | succ budget ih =>
    rw [readUIntFrom_succ]
    exact .behindByte fun b =>
      .ite (fun _ => .fail rfl) fun _ => .ite (fun _ => .pure trivial) fun _ => ih _

theorem readUInt_meets : readUInt.Meets (fun _ => True) maxIntegerBytes := readUIntFrom_meets _ _

theorem readIntFrom_meets (budget : Nat) (value : Int) :
    (readIntFrom budget value).Meets (fun _ => True) budget := by
  induction budget generalizing value with
  | zero => exact .fail rfl
  | succ budget ih =>
    rw [readIntFrom_succ]
    exact .behindByte fun b =>
      .ite (fun _ => .fail rfl) fun _ => .ite (fun _ => .pure trivial) fun _ => ih _

theorem readInt_meets : readInt.Meets (fun _ => True) maxIntegerBytes := by
  rw [readInt_eq]
  exact Read.Meets.behindByte (n := 9) fun b =>
    .ite (fun _ => .pure trivial) fun _ => readIntFrom_meets _ _

theorem readTextFrom_meets (budget : Nat) :
    (readTextFrom budget).Meets (fun _ => True) budget := by
  induction budget with
  | zero => exact .fail rfl
  | succ budget ih =>
    rw [readTextFrom_succ]
    exact .behindByte fun b =>
      .ite (fun _ => .pure trivial) fun _ => ih.map fun _ _ => trivial

theorem readText_meets : readText.Meets (fun _ => True) maxTextBytes := readTextFrom_meets _

namespace PresenceMap

theorem readGroups_meets (budget : Nat) :
    (readGroups budget).Meets (fun _ => True) budget := by
  induction budget with
  | zero => exact .fail rfl
  | succ budget ih =>
    rw [readGroups_succ]
    exact .behindByte fun b =>
      .ite (fun _ => .pure trivial) fun _ => ih.map fun _ _ => trivial

theorem read_meets : read.Meets (fun _ => True) maxGroups :=
  (readGroups_meets _).map fun _ _ => trivial

end PresenceMap

/-! ## Raw values -/

theorem Read.nullableInt_meets (optional : Bool) :
    (Read.nullableInt optional).Meets (fun _ => True) maxIntegerBytes :=
  readInt_meets.map fun _ _ => trivial

theorem Read.nullableUInt_meets (optional : Bool) :
    (Read.nullableUInt optional).Meets (fun _ => True) maxIntegerBytes :=
  readUInt_meets.map fun _ _ => trivial

theorem Read.nullablePair_meets (optional : Bool) :
    (Read.nullablePair optional).Meets (fun _ => True) (maxIntegerBytes + maxIntegerBytes) := by
  refine .bind (Read.nullableInt_meets optional) fun a _ => ?_
  cases a with
  | none => exact .pure trivial
  | some a => exact readInt_meets.map fun _ _ => trivial

theorem readVector_meets (optional unicode : Bool) :
    (readVector optional unicode).Meets (fun _ => True) (maxIntegerBytes + maxVectorBytes) := by
  refine .bind (Read.nullableUInt_meets optional) fun length _ => ?_
  cases length with
  | none => exact .pure trivial
  | some length =>
    -- A length that is too large is refused before any of the bytes are waited for.
    refine .ite (fun _ => .fail rfl) fun hlength => ?_
    refine Read.Meets.atMost (m := length.toNat + 0) (.bind (.take _) fun data _ => ?_)
      (Nat.not_lt.1 hlength)
    exact .ite (fun _ => .fail rfl) fun _ => .pure trivial

end MarketFeed
