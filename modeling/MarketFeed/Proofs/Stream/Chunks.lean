import MarketFeed.Proofs.Stream.Drain

/-!
# Decoding does not depend on the chunks

The law of cutting the bytes of one call in two (`Underway.decode_append`) goes over to draining
(`Underway.drain_append`) and from there, by induction on the chunks, to every way of cutting a
stream (`Underway.feed_view`).
-/

namespace MarketFeed

/-- A call goes on where the one before it has run dry, and counts the bytes of both. -/
def Decoding.after (before now : Decoding) : Decoding :=
  { now with consumed := before.consumed + now.consumed }

namespace Decoder

variable {d : Decoder} {ms : Messages}

/-! ## One call -/

theorem consumed_le (d : Decoder) (ms : Messages) (buffer : List UInt8) :
    (d.decode ms buffer).consumed ≤ buffer.length := by
  rw [decode_eq]
  rcases resumeFrom (d.lastSlot, ms, 0) d.stage buffer with ⟨s, ending, rest⟩
  cases ending <;> simp only [decodingOf] <;> omega

theorem decodingOf_done (s : Holding) (used rest : List UInt8) :
    decodingOf ⟨s, .done, rest⟩ (used ++ rest).length =
      ⟨.ok s.2.2, ⟨.idle, s.1⟩, s.2.1, used.length⟩ := by
  simp [decodingOf]

theorem decodingOf_dry (s : Holding) (stage : Stage) (used rest : List UInt8) :
    decodingOf ⟨s, .dry stage, rest⟩ (used ++ rest).length =
      ⟨.error .incomplete, ⟨stage, s.1⟩, s.2.1, used.length⟩ := by
  simp [decodingOf]

theorem decodingOf_garbled (s : Holding) (e : DecodeError) {used : List UInt8}
    (hused : used ≠ []) (rest : List UInt8) :
    decodingOf ⟨s, .garbled e, rest⟩ (used ++ rest).length =
      ⟨.error (.garbled e), ⟨.idle, s.1⟩, s.2.1, used.length⟩ := by
  have := List.length_pos_iff.2 hused
  simp only [decodingOf, List.length_append, Decoding.mk.injEq, true_and]
  omega

/-- A call that comes to a result reads nothing behind the bytes that it consumes. -/
theorem Underway.decode_append_of_result (h : Underway d ms) {b₁ : List UInt8}
    (hr : (d.decode ms b₁).result ≠ .error .incomplete) (b₂ : List UInt8) :
    d.decode ms (b₁ ++ b₂) = d.decode ms b₁ := by
  rw [decode_eq] at hr
  rw [decode_eq, decode_eq d ms b₁]
  rcases hp : resumeFrom (d.lastSlot, ms, 0) d.stage b₁ with ⟨s, ending, rest⟩
  rw [hp] at hr
  cases ending with
  | dry stage => exact absurd rfl hr
  | done =>
    obtain ⟨used, rfl, hused⟩ := h.resumable.done hp
    rw [List.append_assoc, hused, decodingOf_done, decodingOf_done]
  | garbled e =>
    have hlt := h.resumable.length_lt_of_garbled h.stuck hp
    obtain ⟨used, rfl, hused⟩ := h.resumable.garbled hp
    have hne : used ≠ [] := by
      rintro rfl
      simp at hlt
    rw [List.append_assoc, hused, decodingOf_garbled s e hne, decodingOf_garbled s e hne]

/-- A call that runs dry can be gone on with: the next one does what it would have done. -/
theorem Underway.decode_append_of_incomplete (h : Underway d ms) {b₁ : List UInt8}
    (hr : (d.decode ms b₁).result = .error .incomplete) (b₂ : List UInt8) :
    d.decode ms (b₁ ++ b₂) =
      (d.decode ms b₁).after
        ((d.decode ms b₁).decoder.decode (d.decode ms b₁).messages
          (b₁.drop (d.decode ms b₁).consumed ++ b₂)) := by
  have hnext := h.decode b₁
  rw [decode_eq] at hr
  rw [decode_eq d ms b₁] at hnext ⊢
  rw [decode_eq]
  rcases hp : resumeFrom (d.lastSlot, ms, 0) d.stage b₁ with ⟨s, ending, rest⟩
  rw [hp] at hr hnext
  cases ending with
  | done => simp [decodingOf] at hr
  | garbled e => simp [decodingOf] at hr
  | dry stage =>
    obtain ⟨used, rfl, hused, -⟩ := h.resumable.dry hp
    rw [decodingOf_dry] at hnext ⊢
    rw [List.append_assoc, hused, List.drop_left, decode_eq]
    -- The slot that a read in progress would deliver is not known, and no later one looks at it.
    change decodingOf (resumeFrom (s.1, s.2.1, 0) stage (rest ++ b₂)) _ = _
    rcases hp' : resumeFrom (s.1, s.2.1, 0) stage (rest ++ b₂) with ⟨s', ending, rest'⟩
    cases ending with
    | done =>
      obtain ⟨used', hused', -⟩ := hnext.resumable.done hp'
      rw [← hused', ← List.append_assoc, decodingOf_done, decodingOf_done]
      simp [Decoding.after]
    | dry stage' =>
      obtain ⟨used', hused', -⟩ := hnext.resumable.dry hp'
      rw [← hused', ← List.append_assoc, decodingOf_dry, decodingOf_dry]
      simp [Decoding.after]
    | garbled e =>
      have hlt := hnext.resumable.length_lt_of_garbled hnext.stuck hp'
      obtain ⟨used', hused', -⟩ := hnext.resumable.garbled hp'
      have hne : used' ≠ [] := by
        rintro rfl
        simp [← hused'] at hlt
      rw [← hused', ← List.append_assoc, decodingOf_garbled s' e (by simp [hne]),
        decodingOf_garbled s' e hne]
      simp [Decoding.after]

/-- A call that has run dry finds nothing more in the bytes that it left. -/
theorem Underway.decode_again (h : Underway d ms) {buffer : List UInt8}
    (hr : (d.decode ms buffer).result = .error .incomplete) :
    (d.decode ms buffer).decoder.decode (d.decode ms buffer).messages
        (buffer.drop (d.decode ms buffer).consumed) =
      { d.decode ms buffer with consumed := 0 } := by
  have hagain := h.decode_append_of_incomplete hr []
  simp only [List.append_nil, Decoding.after] at hagain
  generalize (d.decode ms buffer).decoder.decode (d.decode ms buffer).messages
    (buffer.drop (d.decode ms buffer).consumed) = now at hagain ⊢
  generalize d.decode ms buffer = before at hagain ⊢
  obtain ⟨result, decoder, messages, consumed⟩ := before
  obtain ⟨result', decoder', messages', consumed'⟩ := now
  simp only [Decoding.mk.injEq] at hagain ⊢
  obtain ⟨rfl, rfl, rfl, hc⟩ := hagain
  exact ⟨rfl, rfl, rfl, by omega⟩

/-! ## Draining -/

namespace Drained

theorem view_push (r : Decoding) (t : Drained) :
    (t.push r).view = ((r.result, r.messages) :: t.view.1, t.view.2) := rfl

theorem view_behind (front : List Decoding) (t : Drained) :
    (t.behind front).view =
      ((front.map fun r => (r.result, r.messages)) ++ t.view.1, t.view.2) := by
  simp [view, behind]

theorem behind_nil (t : Drained) : t.behind [] = t := rfl

/-- Calls that differ in the bytes consumed alone look the same. -/
theorem view_push_after (before now : Decoding) (t : Drained) :
    (t.push (before.after now)).view = (t.push now).view := rfl

theorem view_push_congr (r : Decoding) {t t' : Drained} (h : t.view = t'.view) :
    (t.push r).view = (t'.push r).view := by
  rw [view_push, view_push, h]

theorem view_behind_congr (front : List Decoding) {t t' : Drained} (h : t.view = t'.view) :
    (t.behind front).view = (t'.behind front).view := by
  rw [view_behind, view_behind, h]

end Drained

/-- What holds of a call that runs dry, and goes from each call to the one before, holds of all. -/
theorem Underway.drain_induction {P : ∀ {d ms}, Underway d ms → List UInt8 → Prop}
    (dry : ∀ {d ms buffer} (h : Underway d ms),
      (d.decode ms buffer).result = .error .incomplete → P h buffer)
    (result : ∀ {d ms buffer} (h : Underway d ms),
      (d.decode ms buffer).result ≠ .error .incomplete →
      P (h.decode buffer) (buffer.drop (d.decode ms buffer).consumed) → P h buffer)
    {d : Decoder} {ms : Messages} (h : Underway d ms) (buffer : List UInt8) : P h buffer := by
  by_cases hr : (d.decode ms buffer).result = .error .incomplete
  · exact dry h hr
  · exact result h hr (drain_induction dry result (h.decode buffer) _)
termination_by d.work buffer
decreasing_by exact decode_lt d ms buffer hr

/-- Nothing is left to be found in what a draining has left over. -/
theorem Underway.drain_drained (h : Underway d ms) (buffer : List UInt8) :
    (d.drain ms buffer).decoder.drain (d.drain ms buffer).messages (d.drain ms buffer).rest =
      ⟨[], (d.drain ms buffer).decoder, (d.drain ms buffer).messages,
        (d.drain ms buffer).rest⟩ := by
  induction h, buffer using Underway.drain_induction with
  | dry h hr =>
    have hagain := h.decode_again hr
    rw [drain_incomplete hr]
    dsimp only
    rw [drain_incomplete (by rw [hagain]; exact hr), hagain]
    rfl
  | result h hr ih =>
    rw [drain_push hr]
    exact ih

theorem Underway.underway_drain (h : Underway d ms) (buffer : List UInt8) :
    Underway (d.drain ms buffer).decoder (d.drain ms buffer).messages := by
  induction h, buffer using Underway.drain_induction with
  | dry h hr =>
    rw [drain_incomplete hr]
    exact h.decode _
  | result h hr ih =>
    rw [drain_push hr]
    exact ih

/-- Draining goes on with what the draining of a first part has left over. -/
theorem Underway.drain_append (h : Underway d ms) (b₁ b₂ : List UInt8) :
    (d.drain ms (b₁ ++ b₂)).view =
      (((d.drain ms b₁).decoder.drain (d.drain ms b₁).messages
        ((d.drain ms b₁).rest ++ b₂)).behind (d.drain ms b₁).decodings).view := by
  induction h, b₁ using Underway.drain_induction with
  | @dry d ms b₁ h hr =>
    have hcall := h.decode_append_of_incomplete hr b₂
    rw [drain_incomplete hr, Drained.behind_nil]
    dsimp only
    -- The second call takes up `b₁` where the first has left it.
    generalize hnow : (d.decode ms b₁).decoder.decode (d.decode ms b₁).messages
      (b₁.drop (d.decode ms b₁).consumed ++ b₂) = now at hcall
    have hdrop : (b₁ ++ b₂).drop (d.decode ms (b₁ ++ b₂)).consumed =
        (b₁.drop (d.decode ms b₁).consumed ++ b₂).drop now.consumed := by
      rw [hcall, Decoding.after, ← List.drop_drop,
        List.drop_append_of_le_length (consumed_le d ms b₁)]
    by_cases hr' : now.result = .error .incomplete
    · rw [drain_incomplete (by rw [hcall]; exact hr'), drain_incomplete (by rw [hnow]; exact hr'),
        hnow, hdrop, hcall]
      rfl
    · have hnow' : ((d.decode ms b₁).decoder.decode (d.decode ms b₁).messages
          (b₁.drop (d.decode ms b₁).consumed ++ b₂)).result ≠ .error .incomplete := by
        rw [hnow]
        exact hr'
      rw [drain_push (by rw [hcall]; exact hr'), drain_push hnow', hnow, hdrop, hcall,
        Drained.view_push_after]
      rfl
  | @result d ms b₁ h hr ih =>
    have hcall := h.decode_append_of_result hr b₂
    rw [drain_push (by rw [hcall]; exact hr), drain_push hr, hcall,
      List.drop_append_of_le_length (consumed_le d ms b₁)]
    exact Drained.view_push_congr _ ih

/-! ## Streams in chunks -/

/-- Chunks behind bytes in which nothing is left to be found are drained as if they were one. -/
theorem Underway.feed_view (h : Underway d ms) {pending : List UInt8}
    (hpending : d.drain ms pending = ⟨[], d, ms, pending⟩) (chunks : List (List UInt8)) :
    (d.feed ms pending chunks).view = (d.drain ms (pending ++ chunks.flatten)).view := by
  induction chunks generalizing d ms pending with
  | nil => rw [List.flatten_nil, List.append_nil, hpending, feed]
  | cons chunk chunks ih =>
    have hrest := ih (h.underway_drain (pending ++ chunk)) (h.drain_drained (pending ++ chunk))
    rw [feed, List.flatten_cons, ← List.append_assoc, h.drain_append]
    exact Drained.view_behind_congr _ hrest

theorem Underway.drain_nil (h : Underway d ms) : d.drain ms [] = ⟨[], d, ms, []⟩ := by
  have hnil : d.decode ms [] = ⟨.error .incomplete, d, ms, 0⟩ := by
    rw [decode_eq, h.stuck]
    rfl
  rw [drain_incomplete (by rw [hnil]), hnil]
  rfl

/--
Cutting the bytes in two, or a stream into any chunks, changes neither the results nor the slots nor
the decoder, whatever state earlier calls have left.
-/
theorem Reached.chunking {set : TemplateSet} (h : Reached set d ms) :
    (∀ b₁ b₂ : List UInt8,
      ((d.decode ms b₁).result = .error .incomplete →
        d.decode ms (b₁ ++ b₂) =
          (d.decode ms b₁).after
            ((d.decode ms b₁).decoder.decode (d.decode ms b₁).messages
              (b₁.drop (d.decode ms b₁).consumed ++ b₂))) ∧
      ((d.decode ms b₁).result ≠ .error .incomplete →
        d.decode ms (b₁ ++ b₂) = d.decode ms b₁)) ∧
    ∀ chunks : List (List UInt8),
      (d.feed ms [] chunks).view = (d.drain ms chunks.flatten).view := by
  have hu := h.underway
  refine ⟨fun b₁ b₂ => ⟨fun hr => ?_, fun hr => ?_⟩, fun chunks => ?_⟩
  · exact hu.decode_append_of_incomplete hr b₂
  · exact hu.decode_append_of_result hr b₂
  · rw [hu.feed_view hu.drain_nil, List.nil_append]

/-- A decoder that has read the map of its first message and waits for the template id. -/
theorem Reached.chunking_mapped :
    let set : TemplateSet := ⟨[{ id := 1, name := "Tick", fields := [
      .scalar { name := "Size", id := 271, kind := .uint, op := .copy }] }], rfl⟩
    let r := Decoder.fresh.decode set.messages [0xE0]
    Reached set r.decoder r.messages ∧ r.decoder.inProgress ∧
      ∀ chunks : List (List UInt8),
        (r.decoder.feed r.messages [] chunks).view =
          (r.decoder.drain r.messages chunks.flatten).view :=
  ⟨.decode .fresh [0xE0], rfl, (Reached.chunking (.decode .fresh [0xE0])).2⟩

end Decoder

end MarketFeed
