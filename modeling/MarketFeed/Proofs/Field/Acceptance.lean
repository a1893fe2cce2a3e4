import MarketFeed.Proofs.Field.Omission

/-!
# What is sent is accepted

Sender and receiver check a value each in its own way: its range, its length, its characters, its
exponent. The two agree on every value but one kind: a Unicode text that is no UTF-8 passes the
sender, which never looks, and is refused by the receiver, unless it was left out.
-/

namespace MarketFeed

/-- The bytes are a token that the read refuses, whatever follows. -/
def Read.Garbles {α : Type} (read : Read α) (bytes : List UInt8) (e : DecodeError) : Prop :=
  ∀ rest, read (bytes ++ rest) = .garbled e rest

namespace Read

variable {α β : Type}

theorem Garbles.fail (e : DecodeError) : (Read.fail e : Read α).Garbles [] e := fun _ => rfl

theorem Garbles.bind {read : Read α} {bytes : List UInt8} {e : DecodeError}
    (h : read.Garbles bytes e) (next : α → Read β) : (read >>= next).Garbles bytes e :=
  fun rest => by
    simp only [Bind.bind, Read.bind]
    rw [h]

theorem Takes.bind_garbles {read : Read α} {next : α → Read β} {front back : List UInt8} {a : α}
    {e : DecodeError} (h : read.Takes front a) (hn : (next a).Garbles back e) :
    (read >>= next).Garbles (front ++ back) e := fun rest => by
  have : (read >>= next) (front ++ back ++ rest) = next a (back ++ rest) := by
    simp only [Bind.bind, Read.bind]
    rw [List.append_assoc, h]
  rw [this, hn]

theorem Takes.bind_fail {read : Read α} {next : α → Read β} {bytes : List UInt8} {a : α}
    {e : DecodeError} (h : read.Takes bytes a) (hn : next a = .fail e) :
    (read >>= next).Garbles bytes e := by
  have hfail : (next a).Garbles [] e := hn ▸ .fail e
  simpa only [List.append_nil] using h.bind_garbles hfail

end Read

/-! ## Malformed texts -/

namespace Decl

variable {d : Decl}

theorem not_isText {e : Entry} (h : ¬ d.IsText e) :
    d.kind = .unicode ∧ ∃ text, e = .assigned (.bytes text) ∧ utf8? text = none := by
  rw [IsText, Classical.not_imp] at h
  obtain ⟨hkind, hmalformed⟩ := h
  refine ⟨hkind, ?_⟩
  cases hbytes : e.asBytes with
  | none => simp [hbytes] at hmalformed
  | some text =>
    rw [hbytes, Option.all_some, Bool.not_eq_true, Option.isSome_eq_false_iff,
      Option.isNone_iff_eq_none] at hmalformed
    obtain ⟨v, hv, htext⟩ := Option.bind_eq_some_iff.1 hbytes
    refine ⟨text, ?_, hmalformed⟩
    cases v <;> simp [Value.asBytes] at htext
    exact htext ▸ Entry.eq_assigned_of_value? hv

/-- A vector of malformed text is read whole before it is refused. -/
theorem writeVector_garbles {text bytes : List UInt8} (h : d.writeVector text = .ok bytes)
    (hmalformed : utf8? text = none) :
    (readVector d.isOptional true).Garbles bytes .invalidUtf8 := by
  obtain ⟨hlen, length, rfl, hlength⟩ := writeVector_eq_ok h
  refine hlength.bind_garbles ?_
  dsimp only
  rw [toNat_vectorLength hlen, if_neg (Nat.not_lt.2 hlen)]
  exact (Read.Takes.take text).bind_fail (by simp [hmalformed])

theorem writeVector_ne_nil {data bytes : List UInt8} (h : d.writeVector data = .ok bytes) :
    bytes ≠ [] := by
  obtain ⟨-, length, rfl, -⟩ := writeVector_eq_ok h
  have := uintSize_pos length
  rw [← length_writeUInt] at this
  exact List.append_ne_nil_of_left_ne_nil (List.length_pos_iff.1 this) data

/-- What a malformed text is written as, which the sender does not refuse. -/
theorem writeValue_of_not_isText {e : Entry} (h : ¬ d.IsText e) :
    ∃ text, utf8? text = none ∧ d.writeValue e = d.writeVector text := by
  obtain ⟨hkind, text, rfl, hmalformed⟩ := not_isText h
  refine ⟨text, hmalformed, ?_⟩
  change (if d.kind = .ascii then d.writeAscii text else d.writeVector text) = _
  rw [hkind, if_neg (by simp)]

theorem writeValue_garbles {e : Entry} (h : ¬ d.IsText e) {bytes : List UInt8}
    (hw : d.writeValue e = .ok bytes) : bytes ≠ [] ∧ d.readValue.Garbles bytes .invalidUtf8 := by
  obtain ⟨text, hmalformed, hvector⟩ := writeValue_of_not_isText h
  rw [hvector] at hw
  refine ⟨writeVector_ne_nil hw, ?_⟩
  unfold readValue
  rw [(not_isText h).1]
  exact (writeVector_garbles hw hmalformed).bind _

end Decl

/-! ## The whole field -/

namespace Field

variable {f r : Field}

/-- Only as a kept field can a text be left out, and only if it is implied. -/
theorem payload_of_not_isText (hop : f.decl.op ≠ .constant) (h : ¬ f.decl.IsText f.current)
    (hallowed : f.decl.op.allowedOn f.decl.kind = true) {bytes : List UInt8}
    (hbytes : f.payload = .ok bytes) :
    (bytes = [] ∧ f.decl.op = .copy ∧ f.marks = false) ∨
      bytes ≠ [] ∧ f.decl.readValue.Garbles bytes .invalidUtf8 ∧
        (f.decl.op = .none ∨ f.decl.op = .copy ∧ f.marks = true) := by
  have hkind := (Decl.not_isText h).1
  cases hcase : f.decl.op with
  | constant => exact absurd hcase hop
  | increment => simp [hcase, hkind, Operator.allowedOn] at hallowed
  | delta => simp [hcase, hkind, Operator.allowedOn] at hallowed
  | none =>
    simp only [payload, hcase] at hbytes
    obtain ⟨hne, hgarbles⟩ := Decl.writeValue_garbles h hbytes
    exact .inr ⟨hne, hgarbles, .inl rfl⟩
  | copy =>
    rw [payload_of_kept (.inl hcase)] at hbytes
    cases hm : f.marks with
    | false =>
      rw [hm, if_neg (by simp)] at hbytes
      exact .inl ⟨(Except.ok.inj hbytes).symm, rfl, rfl⟩
    | true =>
      rw [hm, if_pos rfl] at hbytes
      obtain ⟨hne, hgarbles⟩ := Decl.writeValue_garbles h hbytes
      exact .inr ⟨hne, hgarbles, .inr ⟨rfl, rfl⟩⟩

/--
A field that was written is taken off the bytes by every receiver that agrees: this value, or empty
if there was none, and both sides remember the same again. Of the values that the sender lets
through the receiver refuses the malformed texts and nothing else, and those only if they were sent.
-/
theorem Agrees.read_sent (h : f.Agrees r) (hop : f.decl.op ≠ .constant) {map : PresenceMap}
    (hclear : f.isMarked map = false) {w : Written} (hw : f.write map = .ok w)
    {sent : PresenceMap} (hsent : r.isMarked sent = f.isMarked w.map) (rest : List UInt8) :
    (f.decl.IsText f.current ∨ w.bytes = [] →
      ∃ r', r.read sent (w.bytes ++ rest) = .done r' rest ∧ w.field.Agrees r' ∧
        r'.current.Holds f.current.value?) ∧
    (¬ f.decl.IsText f.current → w.bytes ≠ [] →
      r.read sent (w.bytes ++ rest) = .garbled .invalidUtf8 rest) := by
  obtain ⟨hcheck, -, hbytes, hfield⟩ := write_eq_ok hw
  obtain ⟨hallowed, -, hpresent⟩ := checkSendable_eq_ok hcheck
  rw [isMarked_write hw hclear] at hsent
  by_cases ht : f.decl.IsText f.current
  · obtain ⟨r', htakes, hagrees, hconveys⟩ :=
      h.read_takes (fun _ hconstant => absurd hconstant hop) ht hw hsent
    exact ⟨fun _ => ⟨r', htakes rest, hagrees, (Decl.conveys_iff hop).1 hconveys⟩,
      fun hmalformed => absurd ht hmalformed⟩
  · have hallowed' : r.decl.op.allowedOn r.decl.kind = true := h.decl ▸ hallowed
    rcases payload_of_not_isText hop ht hallowed hbytes with
      ⟨hnil, hcopy, hunmarked⟩ | ⟨hne, hgarbles, hshape⟩
    · -- The receiver finds nothing to refuse: it has the text from an earlier message.
      have himplied : f.isImplied = true := by
        rwa [marks_of_kept (.inl hcopy), Bool.not_eq_false'] at hunmarked
      refine ⟨fun _ => ⟨_, ?_, ?_, holds_receiveKept r _⟩, fun _ hne => absurd hnil hne⟩
      · rw [hnil, List.nil_append, read_unmarked hallowed' (.inl (h.decl ▸ hcopy))
          (hsent.trans hunmarked)]
        exact ⟨h.inherit himplied (hpresent hop), rfl⟩
      · rw [hfield]
        exact h.receiveKept (.inl hcopy)
    · refine ⟨fun hor => (hor.elim ht hne).elim, fun _ _ => ?_⟩
      rcases hshape with hnone | ⟨hcopy, hmarked⟩
      · unfold Field.read
        rw [if_pos hallowed', h.decl, hnone]
        exact hgarbles.bind _ rest
      · rw [read_kept hallowed' (.inl (h.decl ▸ hcopy)), hsent, hmarked, if_pos rfl, h.decl]
        exact hgarbles.bind _ rest

/-- A mandatory Unicode field that holds these bytes. -/
def label (text : List UInt8) : Field where
  decl := { name := "Symbol", id := 55, kind := .unicode }
  current := .assigned (.bytes text)
  previous := .undefined (.bytes [])

theorem read_sent_label :
    ∃ w, (label [65]).write .empty = .ok w ∧
      ∃ r', (label []).read .empty (w.bytes ++ [7]) = .done r' [7] ∧ w.field.Agrees r' ∧
        r'.current.Holds (some (.bytes [65])) := by
  have hagrees : (label [65]).Agrees (label []) := ⟨rfl, rfl, rfl⟩
  have hop : (label [65]).decl.op ≠ .constant := by decide
  have hclear : (label [65]).isMarked .empty = false := by decide
  have hw : (label [65]).write .empty = .ok ⟨.empty, [129, 65], label [65]⟩ := rfl
  have hsent : (label []).isMarked .empty = (label [65]).isMarked .empty := by decide
  have htext : (label [65]).decl.IsText (label [65]).current := by decide +kernel
  exact ⟨_, hw, (hagrees.read_sent hop hclear hw hsent [7]).1 (.inl htext)⟩

/-- The byte 255 is no UTF-8: the sender takes it, and the receiver refuses what was sent. -/
theorem sent_malformed : ∃ w, (label [255]).write .empty = .ok w ∧
    (label []).read w.map w.bytes = .garbled .invalidUtf8 [] :=
  ⟨⟨.empty, [129, 255], label [255]⟩, rfl, by decide +kernel⟩

end Field

end MarketFeed
