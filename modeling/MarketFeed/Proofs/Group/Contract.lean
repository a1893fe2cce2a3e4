import MarketFeed.Proofs.Field.Contract
import MarketFeed.Proofs.Message.Renewal

/-!
# What groups and messages come to

`Formed` is what a codec relies on in a slot: values of the declared kind in every field, never more
rows than a group may have, and a cell for each field in every row. Whatever bytes are read, from
whatever place on, the slot stays formed, an error that refuses a declaration is explained by a field
that was declared as a group without rows, and what is left when the bytes run dry is shorter than
the longest token: `Message.Formed.read_upholds`. The argument follows the readers inward.
-/

namespace MarketFeed

/-! ## Contracts of reads in progress -/

namespace Progress

variable {α σ τ κ μ : Type} {I : σ → Prop} {J : τ → Prop} {E E' : DecodeError → Prop}

/--
However the read ended, its state keeps `I`; it is garbled by an error of `E` only, and dry only
with less than a token left.
-/
structure Upholds (I : σ → Prop) (E : DecodeError → Prop) (p : Progress σ κ) : Prop where
  state : I p.state
  garbled : ∀ e, p.ending = .garbled e → E e
  dry : ∀ k, p.ending = .dry k → p.rest.length < maxTokenBytes

theorem Upholds.mono {p : Progress σ κ} (h : Upholds I E p) (hE : ∀ e, E e → E' e) :
    Upholds I E' p where
  state := h.state
  garbled e he := hE e (h.garbled e he)
  dry := h.dry

theorem Upholds.finished {s : σ} (hs : I s) (rest : List UInt8) :
    Upholds I E (⟨s, .done, rest⟩ : Progress σ κ) where
  state := hs
  garbled e h := by cases h
  dry k h := by cases h

theorem Upholds.refused {s : σ} (hs : I s) {e : DecodeError} (he : E e) (rest : List UInt8) :
    Upholds I E (⟨s, .garbled e, rest⟩ : Progress σ κ) where
  state := hs
  garbled e' h := by
    obtain rfl := Ending.garbled.inj h
    exact he
  dry k h := by cases h

theorem Upholds.ranDry {s : σ} (hs : I s) (k : κ) {rest : List UInt8}
    (hrest : rest.length < maxTokenBytes) :
    Upholds I E (⟨s, .dry k, rest⟩ : Progress σ κ) where
  state := hs
  garbled e h := by cases h
  dry _ _ := hrest

theorem Upholds.afterToken {read : Read α} {p : α → Prop} (hr : read.Meets p maxTokenBytes)
    {s : σ} (hs : I s) (hE : ∀ e : DecodeError, e.refuses = false → E e) {k : κ}
    {next : α → List UInt8 → Progress σ κ} {bytes : List UInt8}
    (hnext : ∀ a rest, read bytes = .done a rest → p a → Upholds I E (next a rest)) :
    Upholds I E (Progress.afterToken read s k next bytes) := by
  simp only [Progress.afterToken]
  cases hread : read bytes with
  | done a rest => exact hnext a rest hread (hr.done hread).1
  | garbled e rest => exact .refused hs (hE e (hr.garbled hread)) rest
  | dry => exact .ranDry hs k (hr.dry hread)

theorem Upholds.andThen {start : List UInt8 → Progress σ κ} {bytes : List UInt8}
    (h : Upholds I E (start bytes)) {f : σ → τ} {g : κ → μ}
    {next : σ → List UInt8 → Progress τ μ} (hf : I (start bytes).state → J (f (start bytes).state))
    (hnext : ∀ s rest, start bytes = ⟨s, .done, rest⟩ → I s → Upholds J E (next s rest)) :
    Upholds J E (Progress.andThen start f g next bytes) := by
  simp only [Progress.andThen]
  obtain ⟨hstate, hgarbled, hdry⟩ := h
  rcases hstart : start bytes with ⟨s, ending, rest⟩
  rw [hstart] at hstate hgarbled hdry hf
  cases ending with
  | done => exact hnext s rest hstart hstate
  | dry k => exact .ranDry (hf hstate) (g k) (hdry k rfl)
  | garbled e => exact .refused (hf hstate) (hgarbled e rfl) rest

theorem Upholds.within {p : Progress σ κ} (h : Upholds I E p) {f : σ → τ} {g : κ → μ}
    (hf : I p.state → J (f p.state)) : Upholds J E (p.within f g) := by
  obtain ⟨s, ending, rest⟩ := p
  cases ending with
  | done => exact .finished (hf h.state) rest
  | dry k => exact .ranDry (hf h.state) (g k) (h.dry k rfl)
  | garbled e => exact .refused (hf h.state) (h.garbled e rfl) rest

end Progress

open Progress (Upholds)

/-- An error that is the bytes' own. -/
def DecodeError.OfBytes (e : DecodeError) : Prop := e.refuses = false

namespace Group

/-- Every field of a dictionary is kinded. -/
def AllKinded (fields : List Field) : Prop := ∀ f ∈ fields, f.Kinded

/-! ## Rows -/

theorem readCells_upholds (map : PresenceMap) {fields : List Field} (h : AllKinded fields)
    (row : Row) (bytes : List UInt8) :
    Upholds (AllKinded ·.1) DecodeError.OfBytes (readCells map fields row bytes) := by
  induction fields generalizing row bytes with
  | nil => exact .finished (by exact h) bytes
  | cons f fields ih =>
    cases row with
    | nil => exact .finished (by exact h) bytes
    | cons entry row =>
      obtain ⟨hf, hfields⟩ := List.forall_mem_cons.1 h
      rw [readCells_cons, readCell_eq hf.valid.kind_ne_sequence]
      refine .afterToken (hf.read_meets map) (by exact h) (fun _ he => he) fun f' rest _ hf' => ?_
      exact (ih hfields row rest).within fun hs => List.forall_mem_cons.2 ⟨hf', hs⟩

theorem readRow_upholds (map : PresenceMap) (start : Nat) {fields : List Field}
    (h : AllKinded fields) (row : Row) (bytes : List UInt8) :
    Upholds (AllKinded ·.1) DecodeError.OfBytes (readRow map start fields row bytes) := by
  have hdrop : AllKinded (fields.drop start) := fun f hf => h f (List.mem_of_mem_drop hf)
  refine (readCells_upholds map hdrop (row.drop start) bytes).within fun hs => ?_
  exact List.forall_mem_append.2 ⟨fun f hf => h f (List.mem_of_mem_take hf), hs⟩

theorem readRowMap_meets (withMap : Bool) (place : RowPlace) :
    (readRowMap withMap place).Meets (fun _ => True) maxTokenBytes := by
  unfold readRowMap
  cases place.map with
  | some map => exact .pure trivial
  | none =>
    exact .ite (fun _ => PresenceMap.read_meets.atMost (by decide)) fun _ => .pure trivial

theorem readRows_upholds (withMap : Bool) {fields : List Field} (h : AllKinded fields)
    (rows : List Row) (place : RowPlace) (bytes : List UInt8) :
    Upholds (AllKinded ·.1) DecodeError.OfBytes (readRows withMap fields rows place bytes) := by
  induction rows generalizing fields place bytes with
  | nil => exact .finished (by exact h) bytes
  | cons row rows ih =>
    rw [readRows_cons]
    refine .afterToken (readRowMap_meets withMap place) (by exact h) (fun _ he => he)
      fun map rest _ _ => ?_
    refine (readRow_upholds map place.field h row rest).andThen (fun hs => hs) ?_
    exact fun s rest _ hs => (ih hs {} rest).within fun hs => hs

/-! ## Groups -/

variable {g : Group}

/-- A group whose length is a number, whose fields are kinded, and whose rows fit both. -/
structure Formed (g : Group) : Prop where
  kind : g.length.decl.kind = .uint
  length : g.length.Kinded
  dictionary : AllKinded g.dictionary
  count_le : g.count ≤ maxRows
  rectangular : g.Rectangular

theorem Formed.reset (h : g.Formed) : g.reset.Formed where
  kind := h.kind
  length := h.length.reset
  dictionary f hf := by
    obtain ⟨f, hmem, rfl⟩ := List.mem_map.1 hf
    exact (h.dictionary f hmem).reset
  count_le := Nat.zero_le _
  rectangular := g.keeps_reset.rectangular h.rectangular

/-- A length that has been read is of the kind that a length is declared with. -/
theorem Formed.put_length (h : g.Formed) {map : PresenceMap} {bytes rest : List UInt8}
    {length : Field} (hread : g.length.read map bytes = .done length rest) :
    ({ g with length } : Group).Formed where
  kind := by rw [(Prod.mk.inj ((g.length.read_yields_frame map).of_done hread)).1, h.kind]
  length := ((h.length.read_meets map).done hread).1
  dictionary := h.dictionary
  count_le := h.count_le
  rectangular := h.rectangular

theorem Formed.resize (h : g.Formed) {n : Nat} (hn : n ≤ maxRows) : (g.resize n).Formed where
  kind := h.kind
  length := h.length
  dictionary := h.dictionary
  count_le := by rwa [count, length_rows_resize]
  rectangular := Rectangular.resize h.rectangular n

/-- The rows were made before they are read, so reading them leaves as many. -/
theorem count_readFrom (g : Group) (start : Nat) (place : RowPlace) (bytes : List UInt8) :
    (g.readFrom start place bytes).state.count = g.count := by
  have hrows := congrArg List.length
    (lengths_readRows g.rowsHaveMap g.dictionary (g.rows.drop start) place bytes)
  simp only [List.length_map, List.length_drop] at hrows
  simp only [readFrom_eq, Progress.within, count, List.length_append, List.length_take, hrows]
  omega

theorem Formed.readFrom_upholds (h : g.Formed) (start : Nat) (place : RowPlace)
    (bytes : List UInt8) :
    Upholds Formed DecodeError.OfBytes (g.readFrom start place bytes) := by
  have hcount := g.count_readFrom start place bytes
  have hrect := (g.keeps_readFrom start place bytes).rectangular h.rectangular
  rw [readFrom_eq] at hcount hrect ⊢
  refine (readRows_upholds g.rowsHaveMap h.dictionary _ place bytes).within fun hs => ?_
  exact ⟨h.kind, h.length, hs, hcount.trans_le h.count_le, hrect⟩

theorem Formed.read_upholds (h : g.Formed) (map : PresenceMap) (place : GroupPlace)
    (bytes : List UInt8) : Upholds Formed DecodeError.OfBytes (g.read map place bytes) := by
  cases place with
  | row i place => exact h.readFrom_upholds i place bytes
  | length =>
    rw [read_length]
    refine .afterToken (h.length.read_meets map) h (fun _ he => he) fun length rest hread _ => ?_
    have hlength := h.put_length hread
    by_cases hmax : ({ g with length } : Group).transmittedLength.toNat ≤ maxRows
    · rw [readBody, if_neg (Nat.not_lt.2 hmax)]
      exact (hlength.resize hmax).readFrom_upholds 0 {} rest
    · rw [readBody_refused (Nat.not_le.1 hmax)]
      exact .refused hlength (by rfl) rest

end Group

/-! ## Items -/

namespace Field

/-- A field that was declared as a group, but without rows. No operator is allowed on it. -/
def IsRowless (f : Field) : Prop := f.decl.kind = .sequence

theorem IsRowless.read_eq {f : Field} (h : f.IsRowless) (map : PresenceMap) :
    f.read map = Read.fail (.invalidOperator f.decl.id f.decl.op) := by
  rw [Field.read, if_neg fun hallowed => kind_ne_sequence hallowed h]

/-- A field is kinded, unless it is rowless: then it is as it was in the beginning. -/
structure Formed (f : Field) : Prop where
  kinded : ¬f.IsRowless → f.Kinded
  untouched : f.IsRowless → f.reset = f

theorem Kinded.formed {f : Field} (h : f.Kinded) : f.Formed where
  kinded _ := h
  untouched hrowless := absurd hrowless h.valid.kind_ne_sequence

theorem Formed.reset {f : Field} (h : f.Formed) : f.reset.Formed where
  kinded hkind := (h.kinded hkind).reset
  untouched _ := f.reset_reset

end Field

namespace Item

def Formed : Item → Prop
  | scalar f => f.Formed
  | group g => g.Formed

/-- If the error refuses a declaration, it is that of a rowless field among the items. -/
def Explain (items : List Item) (e : DecodeError) : Prop :=
  e.refuses = true → ∃ f, scalar f ∈ items ∧ f.IsRowless ∧ e = .invalidOperator f.decl.id f.decl.op

theorem explain_ofBytes {items : List Item} {e : DecodeError} (h : e.OfBytes) :
    Explain items e := fun he => by rw [h] at he; cases he

theorem Explain.mono {items items' : List Item} {e : DecodeError} (h : Explain items e)
    (hsub : ∀ i ∈ items, i ∈ items') : Explain items' e := fun he => by
  obtain ⟨f, hf, hrowless⟩ := h he
  exact ⟨f, hsub _ hf, hrowless⟩

variable {i : Item}

theorem Formed.reset (h : i.Formed) : i.reset.Formed := by
  cases i with
  | group g => exact Group.Formed.reset h
  | scalar f => exact Field.Formed.reset h

theorem Formed.read_upholds (h : i.Formed) (map : PresenceMap) (place : GroupPlace)
    (bytes : List UInt8) : Upholds Formed (Explain [i]) (i.read map place bytes) := by
  cases i with
  | group g =>
    exact ((Group.Formed.read_upholds h map place bytes).mono fun _ => explain_ofBytes).within
      fun hs => hs
  | scalar f =>
    rw [read_scalar]
    by_cases hrowless : f.IsRowless
    · rw [Progress.afterToken, hrowless.read_eq]
      exact .refused h (fun _ => ⟨f, List.mem_singleton.2 rfl, hrowless, rfl⟩) bytes
    · have hf := Field.Formed.kinded h hrowless
      refine .afterToken (hf.read_meets map) h (fun _ => explain_ofBytes) fun f' rest _ hf' => ?_
      exact .finished (by exact hf'.formed) rest

theorem readAll_upholds {items : List Item} (h : ∀ i ∈ items, i.Formed) (map : PresenceMap)
    (place : GroupPlace) (bytes : List UInt8) :
    Upholds (∀ i ∈ ·, i.Formed) (Explain items) (readAll map items place bytes) := by
  induction items generalizing place bytes with
  | nil => exact .finished h bytes
  | cons i items ih =>
    obtain ⟨hi, hitems⟩ := List.forall_mem_cons.1 h
    have hfirst : ∀ j ∈ [i], j ∈ i :: items := by simp
    have hread := (hi.read_upholds map place bytes).mono fun e he => he.mono hfirst
    rw [readAll_cons]
    refine hread.andThen (fun hi => List.forall_mem_cons.2 ⟨hi, hitems⟩) fun i' rest _ hi' => ?_
    refine ((ih hitems .length rest).mono fun e he => he.mono ?_).within ?_
    · exact fun j hj => List.mem_cons_of_mem _ hj
    · exact fun hs => List.forall_mem_cons.2 ⟨hi', hs⟩

end Item

/-! ## Messages -/

namespace Message

def Formed (m : Message) : Prop := ∀ i ∈ m.items, i.Formed

theorem Formed.reset {m : Message} (h : m.Formed) : m.reset.Formed := by
  intro i hi
  obtain ⟨i, hmem, rfl⟩ := List.mem_map.1 hi
  exact (h i hmem).reset

theorem Formed.read_upholds {m : Message} (h : m.Formed) (map : PresenceMap) (place : Place)
    (bytes : List UInt8) : Upholds Formed (Item.Explain m.items) (m.read map place bytes) := by
  have hdrop : ∀ i ∈ m.items.drop place.item, i.Formed := fun i hi => h i (List.mem_of_mem_drop hi)
  refine ((Item.readAll_upholds hdrop map place.group bytes).mono fun e he => he.mono ?_).within ?_
  · exact fun i hi => List.mem_of_mem_drop hi
  · exact fun hs => List.forall_mem_append.2 ⟨fun i hi => h i (List.mem_of_mem_take hi), hs⟩

end Message

end MarketFeed
