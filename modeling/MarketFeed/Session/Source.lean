import MarketFeed.Session.Buffer

/-!
# Byte sources

A source is the list of what its reads bring: bytes, a read that was interrupted or would block, or
a failure. Bytes that do not fit into one read are left for the next, and a source that has ended
brings no bytes at all.
-/

namespace MarketFeed

inductive ReadEvent where
  | bytes (chunk : List UInt8)
  | interrupted
  | wouldBlock
  | failed (reason : String)
deriving DecidableEq, Repr, Inhabited

abbrev Source := List ReadEvent

namespace ReadEvent

/-- A bound on the reads that the event can serve. -/
def weight : ReadEvent → Nat
  | bytes chunk => chunk.length + 1
  | _ => 1

end ReadEvent

/-- A bound on the reads that a source can serve before it ends. -/
def Source.weight (source : Source) : Nat := (source.map ReadEvent.weight).foldr (· + ·) 0

/-- How an attempt to get more bytes ended. -/
inductive Refill where
  | read (n : Nat)
  | ended
  | pending
  | failed (reason : String)
deriving DecidableEq, Repr, Inhabited

/--
Reads more bytes into the buffer, trying again after an interruption and, if reads are to block,
also when one would.
-/
def Source.refill (blocking : Bool) : Source → Buffer → Refill × Source × Buffer
  | [], b => (.ended, [], b.makeRoom)
  | .interrupted :: source, b => refill blocking source b.makeRoom
  | .wouldBlock :: source, b =>
    if blocking then refill blocking source b.makeRoom else (.pending, source, b.makeRoom)
  | .failed reason :: source, b => (.failed reason, source, b.makeRoom)
  | .bytes chunk :: source, b =>
    let b := b.makeRoom
    let left := chunk.drop b.space
    let source := if left.isEmpty then source else .bytes left :: source
    match chunk.take b.space with
    | [] => (.ended, source, b)
    | got => (.read got.length, source, b.append got)

/-- What a read brings is taken from the source and put behind the unread bytes. -/
theorem Source.refill_read {blocking : Bool} {source source' : Source} {b b' : Buffer} {n : Nat}
    (h : Source.refill blocking source b = (.read n, source', b')) :
    0 < n ∧ source'.weight + n ≤ source.weight ∧ b'.unread.length = b.unread.length + n := by
  induction source generalizing b with
  | nil => simp [refill] at h
  | cons e source ih =>
    cases e with
    | interrupted =>
      have := ih h
      simp only [weight, List.map_cons, List.foldr_cons, Buffer.unread_makeRoom] at *
      omega
    | wouldBlock =>
      simp only [refill] at h
      split at h
      · have := ih h
        simp only [weight, List.map_cons, List.foldr_cons, Buffer.unread_makeRoom] at *
        omega
      · simp at h
    | failed reason => simp [refill] at h
    | bytes chunk =>
      simp only [refill] at h
      split at h
      · simp at h
      · rename_i got hne
        have hlength := congrArg List.length (List.take_append_drop b.makeRoom.space chunk)
        rw [List.length_append] at hlength
        simp only [Prod.mk.injEq, Refill.read.injEq] at h
        obtain ⟨rfl, rfl, rfl⟩ := h
        refine ⟨List.length_pos_iff.2 hne, ?_, by simp [Buffer.append]⟩
        simp only [weight, List.map_cons, List.foldr_cons, ReadEvent.weight]
        split
        · omega
        · simp only [List.map_cons, List.foldr_cons, ReadEvent.weight]
          omega

end MarketFeed
