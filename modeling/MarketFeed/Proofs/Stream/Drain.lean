import MarketFeed.Proofs.Stream.Resumption
import MarketFeed.Template

/-!
# Draining a buffer

A buffer is drained by decoding from it, dropping what each call consumed, until no message is
complete. This ends because a call that comes to a result leaves less to do (`decode_lt`). The bytes
may arrive in chunks, each of which is put behind what the last draining has left over.
-/

namespace MarketFeed

namespace Decoder

/-- What is left to do: bytes to read, and a message to come to an end with. -/
def work (d : Decoder) (bytes : List UInt8) : Nat :=
  bytes.length + if d.inProgress then 1 else 0

theorem work_of_inProgress {d : Decoder} (h : d.inProgress) (bytes : List UInt8) :
    d.work bytes = bytes.length + 1 := by
  simp [work, h]

theorem work_idle (lastSlot : Option Nat) (bytes : List UInt8) :
    work ⟨.idle, lastSlot⟩ bytes = bytes.length := rfl

/-- A call that comes to a result leaves less to do. -/
theorem decode_lt (d : Decoder) (ms : Messages) (buffer : List UInt8)
    (h : (d.decode ms buffer).result ≠ .error .incomplete) :
    (d.decode ms buffer).decoder.work (buffer.drop (d.decode ms buffer).consumed) <
      d.work buffer := by
  -- Between messages the presence map takes a byte; within one the end of the message counts.
  have used (hidle : d.stage = .idle) {s : Holding} {ending : Ending Stage} {rest : List UInt8}
      (hend : ∀ k, ending ≠ .dry k)
      (hp : resumeFrom (d.lastSlot, ms, 0) d.stage buffer = ⟨s, ending, rest⟩) :
      rest.length < buffer.length := by
    have hu := underway_idle d.lastSlot ms
    rw [hidle] at hp
    cases ending with
    | dry k => exact absurd rfl (hend k)
    | done => exact hu.resumable.length_lt_of_done hu.stuck hp
    | garbled e => exact hu.resumable.length_lt_of_garbled hu.stuck hp
  rw [decode_eq] at h ⊢
  rcases hp : resumeFrom (d.lastSlot, ms, 0) d.stage buffer with ⟨s, ending, rest⟩
  rw [hp] at h
  cases ending with
  | dry stage => exact absurd rfl h
  | done =>
    simp only [decodingOf, work_idle, List.length_drop]
    by_cases hidle : d.stage = .idle
    · have := used hidle (by simp) hp
      simp only [work]
      omega
    · rw [work_of_inProgress (by simpa [inProgress] using hidle)]
      omega
  | garbled e =>
    simp only [decodingOf, work_idle, List.length_drop]
    by_cases hidle : d.stage = .idle
    · have := used hidle (by simp) hp
      simp only [work]
      omega
    · rw [work_of_inProgress (by simpa [inProgress] using hidle)]
      omega

/-- What draining a buffer leaves: the calls that came to a result, and where the last one stood. -/
structure Drained where
  decodings : List Decoding
  decoder : Decoder
  messages : Messages
  rest : List UInt8

namespace Drained

/-- A call in front of what was drained. -/
def push (r : Decoding) (t : Drained) : Drained := { t with decodings := r :: t.decodings }

/-- What was drained before, in front of what was drained after. -/
def behind (front : List Decoding) (t : Drained) : Drained :=
  { t with decodings := front ++ t.decodings }

/--
What can be told of a draining without knowing where the bytes were cut: every result with the
messages as it left them, and the state at the end.
-/
def view (t : Drained) :
    List (Except DecodeFailure Nat × Messages) × Decoder × Messages × List UInt8 :=
  (t.decodings.map fun r => (r.result, r.messages), t.decoder, t.messages, t.rest)

end Drained

/-- Decodes from a buffer until no message is complete. -/
def drain (d : Decoder) (ms : Messages) (buffer : List UInt8) : Drained :=
  let r := d.decode ms buffer
  match _h : r.result with
  | .error .incomplete => ⟨[], r.decoder, r.messages, buffer.drop r.consumed⟩
  | .error (.garbled _) | .ok _ =>
    (drain r.decoder r.messages (buffer.drop r.consumed)).push r
termination_by d.work buffer
decreasing_by all_goals exact decode_lt d ms buffer (by simp [r, _h])

/-- Drains a buffer to which the bytes come in chunks. -/
def feed (d : Decoder) (ms : Messages) (pending : List UInt8) : List (List UInt8) → Drained
  | [] => ⟨[], d, ms, pending⟩
  | chunk :: chunks =>
    let t := d.drain ms (pending ++ chunk)
    (feed t.decoder t.messages t.rest chunks).behind t.decodings

/-- The decoders and slots that calls to `decode` can lead to. -/
inductive Reached (set : TemplateSet) : Decoder → Messages → Prop
  | fresh : Reached set .fresh set.messages
  | decode {d : Decoder} {ms : Messages} (h : Reached set d ms) (buffer : List UInt8) :
      Reached set (d.decode ms buffer).decoder (d.decode ms buffer).messages

theorem Reached.underway {set : TemplateSet} {d : Decoder} {ms : Messages}
    (h : Reached set d ms) : Underway d ms := by
  induction h with
  | fresh => exact underway_idle none set.messages
  | decode _ buffer ih => exact ih.decode buffer

variable {d : Decoder} {ms : Messages}

theorem drain_incomplete {buffer : List UInt8}
    (h : (d.decode ms buffer).result = .error .incomplete) :
    d.drain ms buffer =
      ⟨[], (d.decode ms buffer).decoder, (d.decode ms buffer).messages,
        buffer.drop (d.decode ms buffer).consumed⟩ := by
  rw [drain]
  split
  · rfl
  all_goals rename_i hr; simp [hr] at h

theorem drain_push {buffer : List UInt8}
    (h : (d.decode ms buffer).result ≠ .error .incomplete) :
    d.drain ms buffer =
      ((d.decode ms buffer).decoder.drain (d.decode ms buffer).messages
        (buffer.drop (d.decode ms buffer).consumed)).push (d.decode ms buffer) := by
  rw [drain]
  split
  · rename_i hr
    exact absurd hr h
  all_goals rfl

end Decoder

end MarketFeed
