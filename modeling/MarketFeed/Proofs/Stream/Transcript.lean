import MarketFeed.Proofs.Stream.Chunks

/-!
# What a whole stream comes to

A stream that lies in one buffer is decoded call after call, and a message that ends the history
resets the dictionaries before the next one. The transcript lists what the calls come to. Cutting
the stream anywhere leaves the transcript as it is (`Underway.transcript_of_incomplete`,
`Underway.transcript_of_result`), so that it can be followed by whoever reads the stream in pieces.
-/

namespace MarketFeed

namespace Decoding

/-- Whether the call delivered a message that ends the history. -/
def endsHistory (r : Decoding) : Bool :=
  match r.result with
  | .ok slot => (r.messages[slot]?).any (·.resets)
  | .error _ => false

/-- The decoder that the next call is made to. -/
def nextDecoder (resetting : Bool) (r : Decoding) : Decoder :=
  if resetting && r.endsHistory then .fresh else r.decoder

/-- The messages that the next call finds. -/
def nextMessages (resetting : Bool) (r : Decoding) : Messages :=
  if resetting && r.endsHistory then r.messages.reset else r.messages

/-- What a call comes to: the message in its slot as the next call finds it, or why it is garbled. -/
def outcomes (resetting : Bool) (r : Decoding) : List (Except DecodeError Message) :=
  match r.result with
  | .ok slot => ((r.nextMessages resetting)[slot]?).toList.map .ok
  | .error (.garbled e) => [.error e]
  | .error .incomplete => []

end Decoding

/-- The messages among outcomes. -/
def received (outcomes : List (Except DecodeError Message)) : List Message :=
  outcomes.filterMap Except.toOption

/-- The number of garbled messages among outcomes. -/
def garbledCount (outcomes : List (Except DecodeError Message)) : Nat :=
  outcomes.countP fun o => !o.isOk

theorem received_append (past later : List (Except DecodeError Message)) :
    received (past ++ later) = received past ++ received later := by
  simp [received]

theorem received_map_ok (ms : List Message) : received (ms.map .ok) = ms := by
  simp [received, List.filterMap_map, Function.comp_def, Except.toOption]

theorem garbledCount_append (past later : List (Except DecodeError Message)) :
    garbledCount (past ++ later) = garbledCount past + garbledCount later :=
  List.countP_append

theorem garbledCount_map_ok (ms : List Message) : garbledCount (ms.map .ok) = 0 := by
  simp [garbledCount, List.countP_map, Function.comp_def, Except.isOk, Except.toBool]

namespace Decoder

variable {d : Decoder} {ms : Messages} {resetting : Bool}

theorem work_nextDecoder_le (resetting : Bool) (r : Decoding) (bytes : List UInt8) :
    (r.nextDecoder resetting).work bytes ≤ r.decoder.work bytes := by
  unfold Decoding.nextDecoder
  split
  · exact Nat.le_add_right _ _
  · exact Nat.le_refl _

/-- What the calls come to that are made of one buffer until no message is complete. -/
def transcript (resetting : Bool) (d : Decoder) (ms : Messages) (buffer : List UInt8) :
    List (Except DecodeError Message) :=
  let r := d.decode ms buffer
  match _h : r.result with
  | .error .incomplete => []
  | .error (.garbled _) | .ok _ =>
    r.outcomes resetting ++
      transcript resetting (r.nextDecoder resetting) (r.nextMessages resetting)
        (buffer.drop r.consumed)
termination_by d.work buffer
decreasing_by
  all_goals
    refine Nat.lt_of_le_of_lt (work_nextDecoder_le resetting _ _) ?_
    exact decode_lt d ms buffer (by simp [r, _h])

theorem transcript_incomplete {buffer : List UInt8}
    (h : (d.decode ms buffer).result = .error .incomplete) :
    d.transcript resetting ms buffer = [] := by
  rw [transcript]
  split
  · rfl
  all_goals rename_i hr; simp [hr] at h

theorem transcript_result {buffer : List UInt8}
    (h : (d.decode ms buffer).result ≠ .error .incomplete) :
    d.transcript resetting ms buffer =
      (d.decode ms buffer).outcomes resetting ++
        ((d.decode ms buffer).nextDecoder resetting).transcript resetting
          ((d.decode ms buffer).nextMessages resetting)
          (buffer.drop (d.decode ms buffer).consumed) := by
  rw [transcript]
  split
  · rename_i hr
    exact absurd hr h
  all_goals rfl

/-- Whether or not a reset has come between, the next call can be cut anywhere too. -/
theorem Underway.next (h : Underway d ms) (resetting : Bool) (buffer : List UInt8) :
    Underway ((d.decode ms buffer).nextDecoder resetting)
      ((d.decode ms buffer).nextMessages resetting) := by
  unfold Decoding.nextDecoder Decoding.nextMessages
  split
  · exact underway_idle none _
  · exact h.decode buffer

/-- A call that comes to a result comes to it whatever bytes follow. -/
theorem Underway.transcript_of_result (h : Underway d ms) {b₁ : List UInt8}
    (hr : (d.decode ms b₁).result ≠ .error .incomplete) (b₂ : List UInt8) :
    d.transcript resetting ms (b₁ ++ b₂) =
      (d.decode ms b₁).outcomes resetting ++
        ((d.decode ms b₁).nextDecoder resetting).transcript resetting
          ((d.decode ms b₁).nextMessages resetting)
          (b₁.drop (d.decode ms b₁).consumed ++ b₂) := by
  have hcall := h.decode_append_of_result hr b₂
  rw [transcript_result (by rw [hcall]; exact hr), hcall,
    List.drop_append_of_le_length (consumed_le d ms b₁)]

/-- A call that runs dry leaves all that the bytes come to, to those after it. -/
theorem Underway.transcript_of_incomplete (h : Underway d ms) {b₁ : List UInt8}
    (hr : (d.decode ms b₁).result = .error .incomplete) (b₂ : List UInt8) :
    d.transcript resetting ms (b₁ ++ b₂) =
      (d.decode ms b₁).decoder.transcript resetting (d.decode ms b₁).messages
        (b₁.drop (d.decode ms b₁).consumed ++ b₂) := by
  have hcall := h.decode_append_of_incomplete hr b₂
  generalize hnow : (d.decode ms b₁).decoder.decode (d.decode ms b₁).messages
    (b₁.drop (d.decode ms b₁).consumed ++ b₂) = now at hcall
  by_cases hdry : now.result = .error .incomplete
  · rw [transcript_incomplete (by rw [hcall]; exact hdry),
      transcript_incomplete (by rw [hnow]; exact hdry)]
  · have hdrop : (b₁ ++ b₂).drop ((d.decode ms b₁).consumed + now.consumed) =
        (b₁.drop (d.decode ms b₁).consumed ++ b₂).drop now.consumed := by
      rw [← List.drop_drop, List.drop_append_of_le_length (consumed_le d ms b₁)]
    have hresult : ((d.decode ms b₁).decoder.decode (d.decode ms b₁).messages
        (b₁.drop (d.decode ms b₁).consumed ++ b₂)).result ≠ .error .incomplete := by
      rw [hnow]
      exact hdry
    rw [transcript_result (by rw [hcall]; exact hdry), transcript_result hresult, hnow, hcall]
    -- Of the two calls, only the number of bytes consumed tells them apart.
    rw [show ((d.decode ms b₁).after now).consumed = (d.decode ms b₁).consumed + now.consumed
      from rfl, hdrop]
    rfl

end Decoder

end MarketFeed
