import MarketFeed.Proofs.Stream.Chunks
import MarketFeed.Proofs.Stream.Contract
import MarketFeed.Proofs.Stream.RoundTrip

/-!
# Decoding makes headway

A call that comes to a result has consumed something, and one that runs dry leaves nothing in the
buffer that the next one would find. So whoever decodes until a call runs dry has made one call for
each byte at the most, and that one (`Orderly.decode_headway`).
-/

namespace MarketFeed

namespace Decoder

variable {set : TemplateSet} {d : Decoder} {ms : Messages}

/-! ## Calls in order -/

/--
The decoders and slots that decoding leads to where no slot is reset under a message in flight: the
message is given up before, by itself or with all that the decoder knows.
-/
inductive Orderly (set : TemplateSet) : Decoder → Messages → Prop
  | fresh : Orderly set .fresh set.messages
  | decode {d : Decoder} {ms : Messages} (h : Orderly set d ms) (buffer : List UInt8) :
      Orderly set (d.decode ms buffer).decoder (d.decode ms buffer).messages
  | abandon {d : Decoder} {ms : Messages} (h : Orderly set d ms) : Orderly set d.abandon ms
  | reset {d : Decoder} {ms : Messages} (h : Orderly set d ms) : Orderly set .fresh ms
  | resetAt {d : Decoder} {ms : Messages} (h : Orderly set d ms) (hidle : d.inProgress = false)
      (slot : Nat) : Orderly set d (ms.resetAt slot)

theorem Orderly.resetAll (h : Orderly set d ms) (hidle : d.inProgress = false) :
    Orderly set d ms.reset :=
  Messages.reset_of_resetAt (fun _ slot h => h.resetAt hidle slot) h

theorem Orderly.visited (h : Orderly set d ms) : Visited set d ms := by
  induction h with
  | fresh => exact .fresh
  | decode _ buffer ih => exact ih.decode buffer
  | abandon _ ih => exact ih.abandon
  | reset _ ih => exact ih.reset
  | resetAt _ _ slot ih => exact ih.resetAt slot

theorem Orderly.underway (h : Orderly set d ms) : Underway d ms := by
  induction h with
  | fresh => exact underway_idle none set.messages
  | decode _ buffer ih => exact ih.decode buffer
  | abandon => exact underway_of_idle rfl
  | reset => exact underway_of_idle rfl
  | resetAt _ hidle slot => exact underway_of_idle hidle

/-! ## Headway -/

/-- A call that comes to a result has read a byte, since it would have been stuck without any. -/
theorem Underway.consumed_pos (h : Underway d ms) {buffer : List UInt8}
    (hr : (d.decode ms buffer).result ≠ .error .incomplete) :
    0 < (d.decode ms buffer).consumed := by
  rw [decode_eq] at hr ⊢
  rcases hp : resumeFrom (d.lastSlot, ms, 0) d.stage buffer with ⟨s, ending, rest⟩
  rw [hp] at hr
  cases ending with
  | dry stage => exact absurd rfl hr
  | done =>
    have hlt := h.resumable.length_lt_of_done h.stuck hp
    simp only [decodingOf]
    omega
  | garbled e =>
    have hlt := h.resumable.length_lt_of_garbled h.stuck hp
    simp only [decodingOf]
    omega

/-- The calls that a draining takes: those that come to a result, and the one that runs dry. -/
def Drained.calls (t : Drained) : Nat := t.decodings.length + 1

theorem Drained.calls_push (r : Decoding) (t : Drained) : (t.push r).calls = t.calls + 1 := rfl

theorem Underway.calls_drain_le (h : Underway d ms) (buffer : List UInt8) :
    (d.drain ms buffer).calls ≤ buffer.length + 1 := by
  induction h, buffer using Underway.drain_induction with
  | dry h hr =>
    rw [drain_incomplete hr]
    exact Nat.le_add_left _ _
  | @result d ms buffer h hr ih =>
    have hpos := h.consumed_pos hr
    have hle := consumed_le d ms buffer
    rw [List.length_drop] at ih
    rw [drain_push hr, Drained.calls_push]
    omega

/-- Decoding until a call runs dry comes to an end, since each call before has consumed something. -/
theorem Orderly.decode_headway (h : Orderly set d ms) (buffer : List UInt8) :
    (d.decode ms buffer).consumed ≤ buffer.length ∧
    ((d.decode ms buffer).result ≠ .error .incomplete → 0 < (d.decode ms buffer).consumed) ∧
    ((d.decode ms buffer).result = .error .incomplete →
      (d.decode ms buffer).decoder.decode (d.decode ms buffer).messages
          (buffer.drop (d.decode ms buffer).consumed) =
        ⟨.error .incomplete, (d.decode ms buffer).decoder, (d.decode ms buffer).messages, 0⟩) ∧
    (d.drain ms buffer).calls ≤ buffer.length + 1 := by
  refine ⟨consumed_le d ms buffer, h.underway.consumed_pos, fun hr => ?_,
    h.underway.calls_drain_le buffer⟩
  rw [h.underway.decode_again hr, ← hr]

/-- Among the rows of a message, after one like it was given up there and its slot reset. -/
theorem Orderly.decode_headway_quotes :
    let r := Decoder.fresh.decode quotes.messages [224, 135, 129, 130, 192, 138, 3, 245, 128]
    let again := Decoder.fresh.decode (r.messages.resetAt 0) [224, 135, 129, 130, 192, 138, 3, 245]
    let dry := again.decoder.decode again.messages [128]
    Orderly quotes again.decoder again.messages ∧ again.decoder.inProgress = true ∧
      dry.result = .error .incomplete ∧ dry.decoder.decode dry.messages ([128].drop dry.consumed) =
        ⟨.error .incomplete, dry.decoder, dry.messages, 0⟩ ∧
      (again.decoder.decode again.messages [128, 192]).result = .ok 0 ∧
      0 < (again.decoder.decode again.messages [128, 192]).consumed ∧
      (again.decoder.drain again.messages [128, 192]).calls ≤ 3 := by
  intro r again dry
  have h : Orderly quotes again.decoder again.messages :=
    .decode (.resetAt (.reset (.decode .fresh _)) rfl 0) _
  have hdry : dry.result = .error .incomplete := by decide
  have hok : (again.decoder.decode again.messages [128, 192]).result = .ok 0 := by decide
  obtain ⟨-, -, hagain, -⟩ := h.decode_headway [128]
  obtain ⟨-, hpos, -, hcalls⟩ := h.decode_headway [128, 192]
  exact ⟨h, by decide, hdry, hagain hdry, hok, hpos (by rw [hok]; nofun), hcalls⟩

/-- A slot that is reset under a message in flight: the message ends there, and no byte is read. -/
example :
    let r := Decoder.fresh.decode quotes.messages [224, 135, 129, 130, 192, 138, 3, 245, 128]
    let now := r.decoder.decode (r.messages.resetAt 0) []
    now.result = .ok 0 ∧ now.consumed = 0 := by
  decide

end Decoder

end MarketFeed
