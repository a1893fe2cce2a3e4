import MarketFeed.Proofs.Book.Depth
import Mathlib.Data.List.Basic

/-!
# Entries that a book refuses

A refused entry leaves no trace but one: it clears the mark of emptiness, so that the book no longer
says that its last entry was the empty-book marker. All else is as if the entry had never come, also
for the entries after it: `refused_changes_mark`.
-/

namespace MarketFeed

namespace Book

variable {b : Book} {e : BookEntry}

/-- The book with this mark of emptiness. -/
def marked (b : Book) (mark : Bool) : Book := { b with isEmpty := mark }

theorem isEmpty_marked (b : Book) (mark : Bool) : (b.marked mark).isEmpty = mark := rfl

theorem marked_eq_self_iff {mark : Bool} : b.marked mark = b ↔ b.isEmpty = mark := by
  constructor
  · intro h
    rw [← h, isEmpty_marked]
  · rintro rfl
    rfl

/-! ## One entry -/

theorem apply_refused {error : BookError} (h : (b.apply e).1 = .error error) :
    (b.apply e).2 = b.marked false := by
  cases hside : e.kind.side? with
  | none => simp [Book.apply, hside] at h
  | some side =>
    rw [apply_of_side hside] at h ⊢
    cases happly : b.applyTo side e with
    | error error' => rfl
    | ok b' => simp [happly] at h

theorem apply_not_accepted (h : ¬ b.Accepts e) : (b.apply e).2 = b.marked false := by
  cases hresult : (b.apply e).1 with
  | error error => exact apply_refused hresult
  | ok done => exact absurd hresult h

/-- No entry looks at the mark. -/
theorem apply_marked (b : Book) (mark : Bool) (e : BookEntry) :
    (b.marked mark).apply e = b.apply e := by
  unfold Book.apply
  cases e.kind.side? with
  | none => rfl
  | some side => rfl

theorem accepts_marked_iff (mark : Bool) : (b.marked mark).Accepts e ↔ b.Accepts e := by
  unfold Accepts
  rw [apply_marked]

/-- Any entry sets the mark by what it is. -/
theorem isEmpty_apply (b : Book) (e : BookEntry) :
    (b.apply e).2.isEmpty = decide (e.kind = .emptyBook) := by
  cases hkind : e.kind with
  | emptyBook => simp [Book.apply, hkind, EntryKind.side?]
  | bid =>
    have hside : e.kind.side? = some .bid := by rw [hkind]; rfl
    rw [apply_of_side hside]
    cases b.applyTo .bid e <;> rfl
  | offer =>
    have hside : e.kind.side? = some .ask := by rw [hkind]; rfl
    rw [apply_of_side hside]
    cases b.applyTo .ask e <;> rfl

/-! ## Runs -/

/-- The entries that are taken when all are applied one after another. -/
def taken (b : Book) : List BookEntry → List BookEntry
  | [] => []
  | e :: entries =>
    if b.Accepts e then e :: (b.apply e).2.taken entries else (b.apply e).2.taken entries

theorem taken_marked (b : Book) (mark : Bool) (entries : List BookEntry) :
    (b.marked mark).taken entries = b.taken entries := by
  cases entries with
  | nil => rfl
  | cons e entries => simp only [taken, accepts_marked_iff, apply_marked]

theorem taken_cons_of_accepts (h : b.Accepts e) (entries : List BookEntry) :
    b.taken (e :: entries) = e :: (b.apply e).2.taken entries := if_pos h

theorem taken_cons_of_refused (h : ¬ b.Accepts e) (entries : List BookEntry) :
    b.taken (e :: entries) = b.taken entries := by
  rw [taken, if_neg h, apply_not_accepted h, taken_marked]

/-- Without the entries that were refused, no other one is. -/
theorem taken_taken (b : Book) (entries : List BookEntry) :
    b.taken (b.taken entries) = b.taken entries := by
  induction entries generalizing b with
  | nil => rfl
  | cons e entries ih =>
    by_cases h : b.Accepts e
    · rw [taken_cons_of_accepts h, taken_cons_of_accepts h, ih]
    · rw [taken_cons_of_refused h, ih]

/-- The mark that a run starts with is gone with its first entry. -/
theorem applyAll_marked (b : Book) (mark mark' : Bool) (entries : List BookEntry) :
    ((b.marked mark).applyAll entries).marked mark' = (b.applyAll entries).marked mark' := by
  cases entries with
  | nil => rfl
  | cons e entries => rw [applyAll_cons, applyAll_cons, apply_marked]

/-- The mark after a run: what its last entry is, or the mark before if there is none. -/
def markAfter (b : Book) (entries : List BookEntry) : Bool :=
  entries.getLast?.elim b.isEmpty fun e => decide (e.kind = .emptyBook)

theorem markAfter_cons (b : Book) (e : BookEntry) (entries : List BookEntry) :
    b.markAfter (e :: entries) = (b.apply e).2.markAfter entries := by
  unfold markAfter
  cases entries with
  | nil => exact (isEmpty_apply b e).symm
  | cons e' entries => rw [List.getLast?_cons_cons, List.getLast?_cons]; rfl

/-- A run comes to what its taken entries come to, apart from the mark. -/
theorem applyAll_eq_taken (b : Book) (entries : List BookEntry) :
    b.applyAll entries = (b.applyAll (b.taken entries)).marked (b.markAfter entries) := by
  induction entries generalizing b with
  | nil => rfl
  | cons e entries ih =>
    rw [applyAll_cons, markAfter_cons, ih]
    by_cases h : b.Accepts e
    · rw [taken_cons_of_accepts h, applyAll_cons]
    · rw [taken_cons_of_refused h, apply_not_accepted h, taken_marked, applyAll_marked]

/--
A refused entry clears the mark of emptiness and changes nothing else, so the book is just as before
unless it was marked. In a run, the entries that are refused can be left out: the others are taken
all the same, and come to the same book but for the mark, which tells whether the last entry was the
empty-book marker, taken or not.
-/
theorem refused_changes_mark (b : Book) :
    (∀ e error, (b.apply e).1 = .error error →
      (b.apply e).2 = b.marked false ∧ ((b.apply e).2 = b ↔ b.isEmpty = false)) ∧
    ∀ entries, b.taken (b.taken entries) = b.taken entries ∧
      b.applyAll entries = (b.applyAll (b.taken entries)).marked (b.markAfter entries) := by
  constructor
  · intro e error h
    have hafter := apply_refused h
    refine ⟨hafter, ?_⟩
    rw [hafter]
    exact marked_eq_self_iff
  · intro entries
    exact ⟨taken_taken b entries, applyAll_eq_taken b entries⟩

/-- The entry that says that the book is empty. -/
def emptyMarker : BookEntry := ⟨.emptyBook, .new, none, 0, none⟩

/-- A refused entry in the middle of a run, and one at its end. -/
theorem refused_changes_mark_bids :
    let b := (ofDepth 2).applyAll [bid .new 100 none, emptyMarker]
    let entries := [bid .delete 99 none, bid .new 101 none, bid .delete 98 none]
    (b.apply (bid .delete 99 none)).1 = .error (.priceNotFound .bid 99) ∧ b.isEmpty = true ∧
      (b.apply (bid .delete 99 none)).2 = b.marked false ∧
      b.taken entries = [bid .new 101 none] ∧
      b.applyAll entries = (b.applyAll [bid .new 101 none]).marked false := by
  intro b entries
  have hrefused : (b.apply (bid .delete 99 none)).1 = .error (.priceNotFound .bid 99) := by
    decide +kernel
  have htaken : b.taken entries = [bid .new 101 none] := by decide +kernel
  obtain ⟨hone, hrun⟩ := refused_changes_mark b
  refine ⟨hrefused, rfl, (hone _ _ hrefused).1, htaken, ?_⟩
  have := (hrun entries).2
  rwa [htaken] at this

/-- A book that was marked empty is changed by an entry that it refuses. -/
theorem unmarked_by_refused :
    let b := ((ofDepth 3).apply emptyMarker).2
    b.isEmpty = true ∧
      (b.apply (bid .delete 100 none)).1 = .error (.priceNotFound .bid 100) ∧
      (b.apply (bid .delete 100 none)).2.isEmpty = false ∧
      (b.apply (bid .delete 100 none)).2 ≠ b := by
  intro b
  refine ⟨rfl, ?_, ?_, ?_⟩
  all_goals decide +kernel

end Book

end MarketFeed
