import MarketFeed.Proofs.Field.Relay

/-!
# Fields that are left out

What the sender compares to leave a field out and what the receiver does without its bit are two
case analyses of the same memory. They fit exactly: a field is left out if and only if it would be
inferred as it is.
-/

namespace MarketFeed

theorem Read.ofExcept_eq_done {α : Type} {x : Except DecodeError α} {bytes rest : List UInt8}
    {a : α} : Read.ofExcept x bytes = .done a rest ↔ x = .ok a ∧ rest = bytes := by
  cases x with
  | error e => simp [ofExcept, fail]
  | ok b =>
    constructor
    · intro h
      obtain ⟨rfl, rfl⟩ := Outcome.done.inj h
      exact ⟨rfl, rfl⟩
    · rintro ⟨h, rfl⟩
      rw [Except.ok.inj h]
      rfl

namespace Field

variable {f r : Field}

/-- The receiver comes to what the sender holds just where the sender takes it as implied. -/
theorem Agrees.isImplied_iff (h : f.Agrees r)
    (hpresent : f.current.isAssigned = false → f.decl.isOptional = true) :
    f.isImplied = true ↔ ∃ r', r.inherit = .ok r' ∧ r'.current.Holds f.current.value? := by
  constructor
  · intro himplied
    exact ⟨_, h.inherit himplied hpresent, holds_receiveKept r _⟩
  · rintro ⟨r', hr', hholds⟩
    exact h.isImplied_of_inherit hr' (Entry.value?_of_holds hholds).symm

/-- Into a map without its bit a kept field is written as nothing just where it is implied. -/
theorem omitted_iff_isImplied (hop : f.decl.op = .copy ∨ f.decl.op = .increment)
    {map : PresenceMap} (hclear : f.isMarked map = false) {w : Written}
    (hw : f.write map = .ok w) :
    (w.bytes = [] ∧ f.isMarked w.map = false) ↔ f.isImplied = true := by
  obtain ⟨-, -, hbytes, -⟩ := write_eq_ok hw
  rw [isMarked_write hw hclear, marks_of_kept hop, Bool.not_eq_false']
  constructor
  · rintro ⟨-, himplied⟩
    exact himplied
  · intro himplied
    rw [payload_of_kept hop, marks_of_kept hop, himplied, if_neg (by simp)] at hbytes
    exact ⟨(Except.ok.inj hbytes).symm, himplied⟩

/-- Without its bit a kept field is read from no byte at all. -/
theorem read_unmarked (hallowed : r.decl.op.allowedOn r.decl.kind = true)
    (hop : r.decl.op = .copy ∨ r.decl.op = .increment) {unset : PresenceMap}
    (hunset : r.isMarked unset = false) {bytes rest : List UInt8} {r' : Field} :
    r.read unset bytes = .done r' rest ↔ r.inherit = .ok r' ∧ rest = bytes := by
  rw [read_kept hallowed hop, hunset, if_neg (by simp)]
  exact Read.ofExcept_eq_done

/--
Omission is exact. A copied or counted field that can be sent leaves no byte and no bit if and only
if a receiver that declares and remembers the same, finding its bit unset, ends with the entry that
was to be sent: this value, or empty if the sender's has none.
-/
theorem Agrees.omitted_iff_inferred (h : f.Agrees r)
    (hop : f.decl.op = .copy ∨ f.decl.op = .increment) {map : PresenceMap}
    (hclear : f.isMarked map = false) {w : Written} (hw : f.write map = .ok w)
    {unset : PresenceMap} (hunset : r.isMarked unset = false) (bytes : List UInt8) :
    (w.bytes = [] ∧ f.isMarked w.map = false) ↔
      ∃ r' rest, r.read unset bytes = .done r' rest ∧ r'.current.Holds f.current.value? := by
  obtain ⟨hcheck, -, -, -⟩ := write_eq_ok hw
  obtain ⟨hallowed, -, hpresent⟩ := checkSendable_eq_ok hcheck
  have hconstant : f.decl.op ≠ .constant := by rcases hop with hop | hop <;> simp [hop]
  have hread (r' : Field) (rest : List UInt8) :
      r.read unset bytes = .done r' rest ↔ r.inherit = .ok r' ∧ rest = bytes :=
    read_unmarked (h.decl ▸ hallowed) (h.decl ▸ hop) hunset
  rw [omitted_iff_isImplied hop hclear hw, h.isImplied_iff (hpresent hconstant)]
  constructor
  · rintro ⟨r', hinherit, hholds⟩
    exact ⟨r', bytes, (hread r' bytes).2 ⟨hinherit, rfl⟩, hholds⟩
  · rintro ⟨r', rest, hdone, hholds⟩
    exact ⟨r', ((hread r' rest).1 hdone).1, hholds⟩

/-- An optional sequence number that was `previous` and is to be `current`. -/
def counter (previous current : UInt64) : Field where
  decl := { name := "MsgSeqNum", id := 34, kind := .uint, op := .increment, presence := .optional }
  bit := some 0
  current := .assigned (.uint current)
  previous := .assigned (.uint previous)

/-- The next number is left out, and inferred by a receiver that holds something else. -/
theorem omitted_iff_inferred_counter :
    ∃ w, (counter 41 42).write .empty = .ok w ∧
      (w.bytes = [] ∧ (counter 41 42).isMarked w.map = false) ∧
      ∃ r' rest, (counter 41 7).read .empty [] = .done r' rest ∧
        r'.current.Holds (some (.uint 42)) := by
  have hw : (counter 41 42).write .empty = .ok ⟨.empty, [], counter 42 42⟩ := rfl
  have hclear : (counter 41 42).isMarked .empty = false := by decide
  have hagrees : (counter 41 42).Agrees (counter 41 7) := ⟨rfl, rfl, rfl⟩
  have hunset : (counter 41 7).isMarked .empty = false := by decide
  exact ⟨_, hw, ⟨rfl, hclear⟩,
    (hagrees.omitted_iff_inferred (.inr rfl) hclear hw hunset []).1 ⟨rfl, hclear⟩⟩

/-- The largest number has no next one, so that zero behind it is sent. -/
example : ((counter 0xffffffffffffffff 0).write .empty).toOption.map (·.bytes) = some [129] := by
  decide +kernel

end Field

end MarketFeed
