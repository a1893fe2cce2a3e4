import MarketFeed.Field.InPlace
import MarketFeed.Proofs.Wire.Local

/-!
# Decoding in place is atomic

The decoder that works in place ends as if it had first read the whole token and only then changed
the field. Nothing that can fail stands behind a write, and so a failure finds the field untouched.
-/

namespace MarketFeed

/-! ## Reads at a cursor -/

namespace Cursor

variable {α β : Type}

@[simp] theorem before_unread (c : Cursor) : c.before c.unread = c := by
  obtain ⟨buffer, position, hle⟩ := c
  simp only [before, unread, List.length_drop]
  congr
  omega

theorem unread_before {c : Cursor} {rest : List UInt8} (h : rest <:+ c.unread) :
    (c.before rest).unread = rest := by
  have hbuffer : rest <:+ c.buffer := h.trans (List.drop_suffix c.position c.buffer)
  exact (List.suffix_iff_eq_drop.1 hbuffer).symm

@[simp] theorem run_pure (c : Cursor) (a : α) : c.run (pure a) = (.ok a, c) := by
  simp only [run, Pure.pure, Read.pure, before_unread]

@[simp] theorem run_fail (c : Cursor) (e : DecodeError) :
    c.run (Read.fail e : Read α) = (.error (.garbled e), c) := by
  simp only [run, Read.fail, before_unread]

theorem run_bind {read : Read α} (hread : read.Local) (next : α → Read β) (c : Cursor) :
    c.run (read >>= next) =
      match c.run read with
      | (.ok a, c') => c'.run (next a)
      | (.error e, c') => (.error e, c') := by
  simp only [run, Bind.bind, Read.bind]
  cases h : read c.unread with
  | done a rest =>
    obtain ⟨used, hused, -⟩ := hread.done h
    dsimp only
    rw [unread_before ⟨used, hused⟩]
    rfl
  | dry => rfl
  | garbled e rest => rfl

/-- A token is a run, except that its cursor is moved back if it has run dry. -/
theorem token_eq (c : Cursor) (read : Read α) :
    c.token read =
      match c.run read with
      | (.error .incomplete, _) => (.error .incomplete, c)
      | outcome => outcome := by
  simp only [token, run]
  cases read c.unread with
  | done a rest => rfl
  | dry => rfl
  | garbled e rest => rfl

end Cursor

/-! ## Steps that change nothing unless they succeed -/

namespace Reception

variable {α β γ : Type} {f : Field}

/--
On the field `f` the step does what the read does. Where the read ends with a value, this tells in
`out` what the step ends with; where it fails, so does the step, the field being still `f`.
-/
def Follows (step : Step α) (f : Field) (read : Read β) (out : β → α × Field) : Prop :=
  ∀ c, step ⟨c, f⟩ =
    match c.run read with
    | (.ok b, c') => .ok (out b).1 ⟨c', (out b).2⟩
    | (.error e, c') => .error e ⟨c', f⟩

namespace Follows

variable {step : Step α} {read : Read β} {out : β → α × Field}

theorem write {b : β} (h : ∀ c, step ⟨c, f⟩ = .ok (out b).1 ⟨c, (out b).2⟩) :
    Follows step f (pure b) out := by
  intro c
  rw [Cursor.run_pure]
  exact h c

theorem fail (e : DecodeError) (out : β → α × Field) :
    Follows (fail e) f (Read.fail e) out := by
  intro c
  rw [Cursor.run_fail]
  rfl

/-- As long as nothing has been written, a step may read and go on by what it has read. -/
theorem fetch {first : Read γ} (hfirst : first.Local) {next : γ → Step α} {rest : γ → Read β}
    (h : ∀ a, Follows (next a) f (rest a) out) :
    Follows (fetch first >>= next) f (first >>= rest) out := by
  intro c
  rw [Cursor.run_bind hfirst]
  simp only [Bind.bind, EStateM.bind, Reception.fetch]
  cases hrun : c.run first with
  | mk result c' =>
    cases result with
    | error e => rfl
    | ok a => exact h a c'

theorem check (x : Except DecodeError γ) {next : γ → Step α} {rest : γ → Read β}
    (h : ∀ a, Follows (next a) f (rest a) out) :
    Follows (check x >>= next) f (Read.ofExcept x >>= rest) out := by
  cases x with
  | ok a => exact h a
  | error e => exact .fail e out

/-- Once a step has written, only writes that cannot fail may follow. -/
theorem andThen (h : Follows step f read out) {next : α → Step Unit} {g : β → Field}
    (hnext : ∀ b c, next (out b).1 ⟨c, (out b).2⟩ = .ok () ⟨c, g b⟩) :
    Follows (step >>= next) f read fun b => ((), g b) := by
  intro c
  simp only [Bind.bind, EStateM.bind]
  rw [h c]
  cases hrun : c.run read with
  | mk result c' =>
    cases result with
    | error e => rfl
    | ok b => exact hnext b c'

/-- What a step makes of the value, the read may make of it instead. -/
theorem map {g : β → γ} {out : γ → α × Field} (h : Follows step f read fun b => out (g b)) :
    Follows step f (do return g (← read)) out := by
  intro c
  rw [h c]
  simp only [Cursor.run, Bind.bind, Read.bind]
  cases read c.unread <;> rfl

theorem look {next : Field → Step α} (h : Follows (next f) f read out) :
    Follows (look >>= next) f read out := h

end Follows

/-- Two numbers come one after the other, the second only if the first is not NULL. -/
theorem Follows.fetchPair (optional : Bool) {null : Step α} {next : Int64 → Int64 → Step α}
    {readNull : Read β} {readNext : Int64 → Int64 → Read β} {out : β → α × Field}
    (hnull : Follows null f readNull out)
    (hnext : ∀ a b, Follows (next a b) f (readNext a b) out) :
    Follows (do
        match ← Reception.fetch (Read.nullableInt optional) with
        | none => null
        | some a =>
          let b ← Reception.fetch readInt
          next a b) f
      (do
        match ← Read.nullablePair optional with
        | none => readNull
        | some (a, b) => readNext a b) out := by
  rw [Read.nullablePair, bind_assoc]
  refine .fetch (Read.nullableInt_local optional) fun a? => ?_
  cases a? with
  | none => exact hnull
  | some a =>
    dsimp only
    rw [bind_assoc]
    exact .fetch readInt_local fun b => hnext a b

/-! ## Raw values -/

def stored (f : Field) : Option Value → Bool × Field
  | some v => (true, { f with current.value := v })
  | none => (false, f)

theorem store_follows (v? : Option Value) : Follows (store v?) f (pure v?) (stored f) := by
  cases v? <;> exact .write fun _ => rfl

theorem fetchVector_follows (optional unicode : Bool) :
    Follows (fetchVector optional unicode) f
      (do return (← readVector optional unicode).map .bytes) (stored f) := by
  refine .map (.fetch (Read.nullableUInt_local optional) fun length? => ?_)
  cases length? with
  | none => exact .write fun _ => rfl
  | some length =>
    dsimp only
    split
    · exact .fail _ _
    · refine .fetch (.take _) fun data => ?_
      split
      · exact .fail _ _
      · exact .write fun _ => rfl

theorem fetchValue_follows (f : Field) : Follows fetchValue f f.decl.readValue (stored f) := by
  refine .look ?_
  unfold Decl.readValue
  dsimp only
  cases f.decl.kind with
  | int => exact .fetch (Read.nullableInt_local _) fun _ => store_follows _
  | uint => exact .fetch (Read.nullableUInt_local _) fun _ => store_follows _
  | ascii => exact .fetch readText_local fun _ => store_follows _
  | unicode => exact fetchVector_follows _ _
  | bytes => exact fetchVector_follows _ _
  | sequence => exact .fail _ _
  | decimal =>
    exact .fetchPair _ (store_follows none) fun exponent mantissa =>
      .check _ fun v => store_follows (some v)

/-! ## Operators -/

theorem advance_follows (v? : Option Value) :
    Follows (advance v?) f (pure v?) fun v? => ((), f.receiveDelta v?) := by
  cases v? <;> exact .write fun _ => rfl

theorem fetchDelta_follows (f : Field) :
    Follows fetchDelta f f.readDelta fun v? => ((), f.receiveDelta v?) := by
  refine .look ?_
  have integer : Follows (do
        match ← Reception.fetch (Read.nullableInt f.decl.isOptional) with
        | none => advance none
        | some delta => advance (some (← Reception.check (f.addDelta delta)))) f
      (do
        match ← Read.nullableInt f.decl.isOptional with
        | none => return none
        | some delta => return some (← Read.ofExcept (f.addDelta delta)))
      fun v? => ((), f.receiveDelta v?) := by
    refine .fetch (Read.nullableInt_local _) fun delta? => ?_
    cases delta? with
    | none => exact advance_follows none
    | some delta => exact .check _ fun v => advance_follows (some v)
  unfold Field.readDelta
  cases f.decl.kind with
  | int => exact integer
  | uint => exact integer
  | decimal =>
    exact .fetchPair _ (advance_follows none) fun exponent mantissa =>
      .check _ fun v => advance_follows (some v)
  | ascii => exact .fail _ _
  | unicode => exact .fail _ _
  | bytes => exact .fail _ _
  | sequence => exact .fail _ _

theorem inherit_follows (f : Field) :
    Follows inherit f (Read.ofExcept f.inherit) fun f' => ((), f') := by
  obtain ⟨decl, bit, current, ⟨state, value⟩⟩ := f
  refine .look ?_
  unfold Field.inherit
  dsimp only
  cases state with
  | assigned =>
    dsimp only
    by_cases hop : decl.op = .increment
    · rw [if_pos hop, if_pos hop]
      cases value.successor with
      | none => exact .fail _ _
      | some v => exact .write fun _ => rfl
    · rw [if_neg hop, if_neg hop]
      exact .write fun _ => rfl
  | empty =>
    dsimp only
    split
    · exact .fail _ _
    · exact .write fun _ => rfl
  | undefined =>
    dsimp only
    cases decl.init with
    | some v => exact .write fun _ => rfl
    | none =>
      dsimp only
      split
      · exact .write fun _ => rfl
      · exact .fail _ _

theorem takeConstant_follows (f : Field) (map : PresenceMap) :
    Follows (takeConstant map) f (Read.ofExcept (f.takeConstant map)) fun f' => ((), f') := by
  refine .look ?_
  unfold Field.takeConstant
  split
  · exact .write fun _ => rfl
  · cases f.decl.init with
    | some v => exact .write fun _ => rfl
    | none => exact .fail _ _

/-! ## The whole field -/

theorem operate_follows {f : Field} (hallowed : f.decl.op.allowedOn f.decl.kind = true)
    (map : PresenceMap) : Follows (operate map) f (f.read map) fun f' => ((), f') := by
  refine .look ?_
  rw [Field.read, if_pos hallowed]
  have kept : Follows (if f.isMarked map then do storePrevious (← fetchValue) else inherit) f
      (if f.isMarked map then do return f.receiveKept (← f.decl.readValue)
        else Read.ofExcept f.inherit) fun f' => ((), f') := by
    split
    · refine .map (.andThen (fetchValue_follows f) fun v? c => ?_)
      cases v? <;> rfl
    · exact inherit_follows f
  cases f.decl.op with
  | copy => exact kept
  | increment => exact kept
  | none =>
    refine .map (.andThen (fetchValue_follows f) fun v? c => ?_)
    cases v? <;> rfl
  | delta => exact .map (fetchDelta_follows f)
  | constant => exact takeConstant_follows f map

/-- In place the field is decoded as it is read, and where this fails it is left as it was. -/
theorem decode_eq (map : PresenceMap) (s : Reception) :
    decode map s =
      match s.cursor.token (s.field.read map) with
      | (.ok f, c) => .ok () ⟨c, f⟩
      | (.error e, c) => .error e ⟨c, s.field⟩ := by
  obtain ⟨c, f⟩ := s
  change (if f.decl.op.allowedOn f.decl.kind then token (operate map)
    else fail (.invalidOperator f.decl.id f.decl.op)) ⟨c, f⟩ = _
  rw [Cursor.token_eq]
  by_cases hallowed : f.decl.op.allowedOn f.decl.kind = true
  · rw [if_pos hallowed, token, operate_follows hallowed map c]
    cases c.run (f.read map) with
    | mk result c' =>
      cases result with
      | ok f' => rfl
      | error e => cases e <;> rfl
  · rw [if_neg hallowed, Field.read, if_neg hallowed, Cursor.run_fail]
    rfl

/--
Decoding a field is atomic. If it fails, whatever the cause, then both entries are as before the
call, and if the bytes have not all arrived, then the cursor is where the call began.
-/
theorem decode_atomic {map : PresenceMap} {s s' : Reception} {e : DecodeFailure}
    (h : decode map s = .error e s') :
    s'.field = s.field ∧ (e = .incomplete → s'.cursor = s.cursor) := by
  rw [decode_eq, Cursor.token] at h
  cases hread : s.field.read map s.cursor.unread with
  | done f rest =>
    rw [hread] at h
    cases h
  | dry =>
    rw [hread] at h
    cases h
    exact ⟨rfl, fun _ => rfl⟩
  | garbled error rest =>
    rw [hread] at h
    cases h
    exact ⟨rfl, fun he => by cases he⟩

/-- A price that moves by deltas, at the largest exponent but three, and the bytes of a move. -/
def move (bytes : List UInt8) : Reception where
  cursor := .ofBytes bytes
  field := {
    decl := { name := "MDEntryPx", id := 270, kind := .decimal, op := .delta }
    current := ⟨.empty, .decimal ⟨7, 0⟩⟩
    previous := .assigned (.decimal ⟨5, 60⟩) }

/-- Four steps up are one too many; half of the bytes of a move are none. -/
theorem decode_atomic_move :
    (∃ s', decode .empty (move [132, 129]) = .error (.garbled (.exponentOutOfRange 64)) s' ∧
      s'.field = (move [132, 129]).field) ∧
    ∃ s', decode .empty (move [132]) = .error .incomplete s' ∧
      s'.field = (move [132]).field ∧ s'.cursor = (move [132]).cursor := by
  have hout : ∃ s', decode .empty (move [132, 129]) =
      .error (.garbled (.exponentOutOfRange 64)) s' := ⟨_, rfl⟩
  have hdry : ∃ s', decode .empty (move [132]) = .error .incomplete s' := ⟨_, rfl⟩
  obtain ⟨s, hs⟩ := hout
  obtain ⟨t, ht⟩ := hdry
  obtain ⟨hfield, hcursor⟩ := decode_atomic ht
  exact ⟨⟨s, hs, (decode_atomic hs).1⟩, ⟨t, ht, hfield, hcursor rfl⟩⟩

end Reception

end MarketFeed
