import MarketFeed.Proofs.Group.Resumption
import MarketFeed.Stream.Decoder

/-!
# Decoders can be cut anywhere

A decoder that goes on with a message is a resumable read: its place is the stage of the message in
flight, its state the rest of the decoder and the slots. `Decoder.Underway` is what every call to
`decode` keeps, and `Underway.decode_append` is the law of cutting the bytes of a call in two.
-/

namespace MarketFeed

namespace Decoder

/-- What a decoder keeps besides its stage: the last slot, the messages, and the slot delivered. -/
abbrev Holding := Option Nat × Messages × Nat

/-- An attempt as a read in progress. A garbled message leaves no place to go on from. -/
def Attempt.progress (a : Attempt) : Progress Holding Stage :=
  match a.result with
  | .ok slot => ⟨(a.decoder.lastSlot, a.messages, slot), .done, a.rest⟩
  | .error .incomplete => ⟨(a.decoder.lastSlot, a.messages, 0), .dry a.decoder.stage, a.rest⟩
  | .error (.garbled e) => ⟨(a.decoder.lastSlot, a.messages, 0), .garbled e, a.rest⟩

/-- Goes on from a stage. -/
def resumeFrom (s : Holding) (stage : Stage) (bytes : List UInt8) : Progress Holding Stage :=
  (resume ⟨stage, s.1⟩ s.2.1 bytes).progress

/-- What a call leaves, told from the read that it has made of a buffer of `size` bytes. -/
def decodingOf (p : Progress Holding Stage) (size : Nat) : Decoding :=
  let used := size - p.rest.length
  match p.ending with
  | .done => ⟨.ok p.state.2.2, ⟨.idle, p.state.1⟩, p.state.2.1, used⟩
  | .dry stage => ⟨.error .incomplete, ⟨stage, p.state.1⟩, p.state.2.1, used⟩
  | .garbled e => ⟨.error (.garbled e), ⟨.idle, p.state.1⟩, p.state.2.1, min (max used 1) size⟩

/-! ## The parts of an attempt -/

/-- Reads the fields of the message in a slot. -/
def fillFrom (lastSlot : Option Nat) (ms : Messages) (map : PresenceMap) (slot : Nat) (m : Message)
    (place : Place) : List UInt8 → Progress Holding Stage :=
  Progress.andThen (m.read map place) (fun m => (lastSlot, ms.set slot m, 0)) (.filling map slot)
    fun m bytes => ⟨(if m.resets then none else some slot, ms.set slot m, slot), .done, bytes⟩

theorem progress_fill {d : Decoder} {ms : Messages} {slot : Nat} {m : Message}
    (hm : ms[slot]? = some m) (map : PresenceMap) (place : Place) (bytes : List UInt8) :
    (d.fill ms map slot place bytes).progress =
      fillFrom d.lastSlot ms map slot m place bytes := by
  simp only [fill, hm, fillFrom, Progress.andThen]
  rcases m.read map place bytes with ⟨m, ending, rest⟩
  cases ending <;> rfl

theorem progress_fill_none {d : Decoder} {ms : Messages} {slot : Nat} (hm : ms[slot]? = none)
    (map : PresenceMap) (place : Place) (bytes : List UInt8) :
    (d.fill ms map slot place bytes).progress =
      ⟨(d.lastSlot, ms, 0), .garbled (.unknownTemplate (.ofNat slot)), bytes⟩ := by
  simp only [fill, hm]
  rfl

theorem progress_afterMap (d : Decoder) (ms : Messages) (map : PresenceMap) :
    (fun bytes => (d.afterMap ms map bytes).progress) =
      Progress.afterToken (d.readSlot ms map) (d.lastSlot, ms, 0) (.mapped map) fun slot bytes =>
        (d.fill ms map slot {} bytes).progress := by
  funext bytes
  simp only [afterMap, Progress.afterToken]
  cases d.readSlot ms map bytes <;> rfl

theorem progress_resume_idle (lastSlot : Option Nat) (ms : Messages) (n : Nat) :
    resumeFrom (lastSlot, ms, n) .idle =
      Progress.afterToken PresenceMap.read (lastSlot, ms, 0) .idle fun map bytes =>
        (afterMap ⟨.idle, lastSlot⟩ ms map bytes).progress := by
  funext bytes
  simp only [resumeFrom, resume, Progress.afterToken]
  cases PresenceMap.read bytes <;> rfl

/-- The stage of a decoder has no part in what it makes of a message once the map is known. -/
theorem progress_afterMap_stage (stage : Stage) (lastSlot : Option Nat) (ms : Messages)
    (map : PresenceMap) :
    (fun bytes => (afterMap ⟨stage, lastSlot⟩ ms map bytes).progress) =
      fun bytes => (afterMap ⟨.idle, lastSlot⟩ ms map bytes).progress := by
  rw [progress_afterMap, progress_afterMap]
  congr 1
  funext slot bytes
  cases hm : ms[slot]? with
  | none => rw [progress_fill_none hm, progress_fill_none hm]
  | some m => rw [progress_fill hm, progress_fill hm]

theorem readSlot_local (d : Decoder) (ms : Messages) (map : PresenceMap) :
    (d.readSlot ms map).Local := by
  unfold readSlot
  refine .ite (.bind readUInt_local fun id => .ite ?_ (.fail _)) ?_
  · cases ms.slot? id.toUInt32 with
    | none => exact .fail _
    | some slot => exact .pure slot
  · cases d.lastSlot with
    | none => exact .fail _
    | some slot => exact .pure slot

theorem fill_resumable (d : Decoder) (ms : Messages) (map : PresenceMap) (slot : Nat) :
    Resumable (fun bytes => (d.fill ms map slot {} bytes).progress) resumeFrom := by
  cases hm : ms[slot]? with
  | none =>
    rw [funext (progress_fill_none hm map {})]
    exact .refused _ _ _
  | some m =>
    rw [funext (progress_fill hm map {})]
    refine (m.read_resumable map).andThen (fun m => .finished _ _) fun m' place _ _ _ => ?_
    have hset : (ms.set slot m')[slot]? = some m' := by
      rw [List.getElem?_set_self (List.getElem?_eq_some_iff.1 hm).1]
    funext more
    simp only [resumeFrom, resume, progress_fill hset, fillFrom, List.set_set]

theorem afterMap_resumable (lastSlot : Option Nat) (ms : Messages) (map : PresenceMap) :
    Resumable (fun bytes => (afterMap ⟨.idle, lastSlot⟩ ms map bytes).progress) resumeFrom := by
  rw [progress_afterMap]
  refine .afterToken (readSlot_local _ ms map) (fun slot _ _ _ => fill_resumable _ ms map slot) ?_
  rw [← progress_afterMap, ← progress_afterMap_stage (.mapped map)]
  rfl

theorem resume_resumable (lastSlot : Option Nat) (ms : Messages) (n : Nat) :
    Resumable (resumeFrom (lastSlot, ms, n) .idle) resumeFrom := by
  rw [progress_resume_idle]
  refine .afterToken PresenceMap.read_local (fun map _ _ _ => afterMap_resumable lastSlot ms map) ?_
  exact progress_resume_idle lastSlot ms 0

/-! ## Calls -/

/-- A decoder between two calls: it goes on with a resumable read, which is stuck without bytes. -/
structure Underway (d : Decoder) (ms : Messages) : Prop where
  resumable : Resumable (resumeFrom (d.lastSlot, ms, 0) d.stage) resumeFrom
  stuck : resumeFrom (d.lastSlot, ms, 0) d.stage [] = ⟨(d.lastSlot, ms, 0), .dry d.stage, []⟩

theorem underway_idle (lastSlot : Option Nat) (ms : Messages) : Underway ⟨.idle, lastSlot⟩ ms where
  resumable := resume_resumable lastSlot ms 0
  stuck := by
    rw [progress_resume_idle]
    rfl

theorem underway_of_idle {d : Decoder} {ms : Messages} (hd : d.inProgress = false) :
    d.Underway ms := by
  obtain ⟨stage, lastSlot⟩ := d
  simp only [inProgress, bne_eq_false_iff_eq] at hd
  subst hd
  exact underway_idle lastSlot ms

theorem stage_resume_ok {d : Decoder} {ms : Messages} {bytes : List UInt8} {slot : Nat}
    (h : (d.resume ms bytes).result = .ok slot) : (d.resume ms bytes).decoder.stage = .idle := by
  have fill {d : Decoder} {map : PresenceMap} {i : Nat} {place : Place} {bytes : List UInt8}
      (h : (d.fill ms map i place bytes).result = .ok slot) :
      (d.fill ms map i place bytes).decoder.stage = .idle := by
    unfold Decoder.fill at h ⊢
    split at h
    · cases h
    · split at h
      · rfl
      · cases h
      · cases h
  have afterMap {d : Decoder} {map : PresenceMap} {bytes : List UInt8}
      (h : (d.afterMap ms map bytes).result = .ok slot) :
      (d.afterMap ms map bytes).decoder.stage = .idle := by
    unfold Decoder.afterMap at h ⊢
    split at h
    · exact fill h
    · cases h
    · cases h
  unfold resume at h ⊢
  split at h
  · exact fill h
  · exact afterMap h
  · split at h
    · exact afterMap h
    · cases h
    · cases h

theorem decode_eq (d : Decoder) (ms : Messages) (buffer : List UInt8) :
    d.decode ms buffer =
      decodingOf (resumeFrom (d.lastSlot, ms, 0) d.stage buffer) buffer.length := by
  have hstage (slot : Nat) (h : (d.resume ms buffer).result = .ok slot) := stage_resume_ok h
  simp only [decode, resumeFrom]
  generalize d.resume ms buffer = a at hstage
  obtain ⟨result, ⟨stage, lastSlot⟩, messages, rest⟩ := a
  rcases result with (_ | e) | slot
  · rfl
  · rfl
  · obtain rfl := hstage slot rfl
    rfl

variable {d : Decoder} {ms : Messages}

theorem Underway.decode (h : Underway d ms) (buffer : List UInt8) :
    Underway (d.decode ms buffer).decoder (d.decode ms buffer).messages := by
  rw [decode_eq]
  rcases hp : resumeFrom (d.lastSlot, ms, 0) d.stage buffer with ⟨⟨lastSlot, ms', n⟩, ending, rest⟩
  cases ending with
  | done => exact underway_idle lastSlot ms'
  | garbled e => exact underway_idle lastSlot ms'
  | dry stage =>
    obtain ⟨-, -, -, hstuck⟩ := h.resumable.dry hp
    have hnil := hstuck [] List.nil_prefix
    have hn : n = 0 := by
      have := congrArg (·.state.2.2) hp
      simp only [resumeFrom, Attempt.progress] at this
      have hend := congrArg Progress.ending hp
      simp only [resumeFrom, Attempt.progress] at hend
      split at this
      · rename_i hr; simp [hr] at hend
      · exact this.symm
      · exact this.symm
    subst hn
    exact ⟨h.resumable.resumed hp, hnil⟩

end Decoder

end MarketFeed
