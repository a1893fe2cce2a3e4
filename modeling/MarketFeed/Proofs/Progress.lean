import MarketFeed.Proofs.Wire.Local
import MarketFeed.Progress

/-!
# Reads that can be cut anywhere

A read that is kept in progress is `Resumable` if it makes no difference where its bytes are cut:
going on from the place where it ran dry does what the whole read would have done. Two ways of
putting reads together keep this: a token followed by the rest of a read, and one resumable read
followed by another.
-/

namespace MarketFeed

variable {α σ τ κ μ : Type}

/--
A read from its start, and how it is gone on with from a place: the bytes used settle how it ends,
and a dry end is stuck until more bytes come than were there.
-/
structure Resumable (start : List UInt8 → Progress σ κ)
    (resume : σ → κ → List UInt8 → Progress σ κ) : Prop where
  done : ∀ {bytes s rest}, start bytes = ⟨s, .done, rest⟩ →
    ∃ used, used ++ rest = bytes ∧ ∀ more, start (used ++ more) = ⟨s, .done, more⟩
  garbled : ∀ {bytes s e rest}, start bytes = ⟨s, .garbled e, rest⟩ →
    ∃ used, used ++ rest = bytes ∧ ∀ more, start (used ++ more) = ⟨s, .garbled e, more⟩
  dry : ∀ {bytes s k rest}, start bytes = ⟨s, .dry k, rest⟩ →
    ∃ used, used ++ rest = bytes ∧ (∀ more, start (used ++ more) = resume s k more) ∧
      ∀ front, front <+: rest → resume s k front = ⟨s, .dry k, front⟩

namespace Progress

/-- A token in front of a read; while it has not arrived, the place is `k` and the state `s`. -/
def afterToken (read : Read α) (s : σ) (k : κ) (next : α → List UInt8 → Progress σ κ)
    (bytes : List UInt8) : Progress σ κ :=
  match read bytes with
  | .done a rest => next a rest
  | .dry => ⟨s, .dry k, bytes⟩
  | .garbled e rest => ⟨s, .garbled e, rest⟩

/-- A read as the first part of a larger one, which goes on with `next`. -/
def andThen (start : List UInt8 → Progress σ κ) (f : σ → τ) (g : κ → μ)
    (next : σ → List UInt8 → Progress τ μ) (bytes : List UInt8) : Progress τ μ :=
  match start bytes with
  | ⟨s, .done, rest⟩ => next s rest
  | ⟨s, .dry k, rest⟩ => ⟨f s, .dry (g k), rest⟩
  | ⟨s, .garbled e, rest⟩ => ⟨f s, .garbled e, rest⟩

theorem within_eq_andThen (start : List UInt8 → Progress σ κ) (f : σ → τ) (g : κ → μ) :
    (fun bytes => (start bytes).within f g) =
      andThen start f g fun s bytes => ⟨f s, .done, bytes⟩ := by
  funext bytes
  rcases h : start bytes with ⟨s, ending, rest⟩
  cases ending <;> simp [andThen, within, Ending.mapPlace, h]

theorem within_within {υ ν : Type} (p : Progress σ κ) (f : σ → τ) (g : κ → μ) (f' : τ → υ)
    (g' : μ → ν) : (p.within f g).within f' g' = p.within (f' ∘ f) (g' ∘ g) := by
  obtain ⟨s, ending, rest⟩ := p
  cases ending <;> rfl

/-! ## Reads that came to their end -/

theorem afterToken_eq_done {read : Read α} {s t : σ} {k : κ} {next : α → List UInt8 → Progress σ κ}
    {bytes rest : List UInt8} (h : afterToken read s k next bytes = ⟨t, .done, rest⟩) :
    ∃ a middle, read bytes = .done a middle ∧ next a middle = ⟨t, .done, rest⟩ := by
  unfold afterToken at h
  split at h
  · next a middle hread => exact ⟨a, middle, hread, h⟩
  · cases h
  · cases h

theorem andThen_eq_done {start : List UInt8 → Progress σ κ} {f : σ → τ} {g : κ → μ}
    {next : σ → List UInt8 → Progress τ μ} {bytes rest : List UInt8} {t : τ}
    (h : andThen start f g next bytes = ⟨t, .done, rest⟩) :
    ∃ s middle, start bytes = ⟨s, .done, middle⟩ ∧ next s middle = ⟨t, .done, rest⟩ := by
  unfold andThen at h
  split at h
  · next s middle hstart => exact ⟨s, middle, hstart, h⟩
  · cases h
  · cases h

theorem within_eq_done {p : Progress σ κ} {f : σ → τ} {g : κ → μ} {t : τ} {rest : List UInt8}
    (h : p.within f g = ⟨t, .done, rest⟩) : ∃ s, p = ⟨s, .done, rest⟩ ∧ f s = t := by
  obtain ⟨s, ending, rest'⟩ := p
  cases ending with
  | done =>
    obtain ⟨rfl, -, rfl⟩ := Progress.mk.inj h
    exact ⟨s, rfl, rfl⟩
  | dry place => cases h
  | garbled e => cases h

/-! ## What is kept, however far a read gets -/

theorem state_afterToken {J : σ → Prop} {read : Read α} {s : σ} (hs : J s) {k : κ}
    {next : α → List UInt8 → Progress σ κ} {bytes : List UInt8}
    (hnext : ∀ a rest, read bytes = .done a rest → J (next a rest).state) :
    J (afterToken read s k next bytes).state := by
  rw [afterToken]
  cases hread : read bytes with
  | done a rest => exact hnext a rest hread
  | dry => exact hs
  | garbled e rest => exact hs

theorem state_andThen {J : τ → Prop} {start : List UInt8 → Progress σ κ} {bytes : List UInt8}
    {f : σ → τ} {g : κ → μ} {next : σ → List UInt8 → Progress τ μ}
    (hf : J (f (start bytes).state))
    (hnext : ∀ rest, J (next (start bytes).state rest).state) :
    J (andThen start f g next bytes).state := by
  rw [andThen]
  rcases hstart : start bytes with ⟨s, ending, rest⟩
  rw [hstart] at hf hnext
  cases ending with
  | done => exact hnext rest
  | dry k => exact hf
  | garbled e => exact hf

end Progress

namespace Resumable

/-- A read without bytes to use is over at once. -/
theorem finished (s : σ) (resume : σ → κ → List UInt8 → Progress σ κ) :
    Resumable (fun bytes => ⟨s, .done, bytes⟩) resume where
  done h := by
    obtain ⟨rfl, -, rfl⟩ := Progress.mk.inj h
    exact ⟨[], rfl, fun _ => rfl⟩
  garbled h := by simp at h
  dry h := by simp at h

/-- A read that is garbled without a byte more. -/
theorem refused (s : σ) (e : DecodeError) (resume : σ → κ → List UInt8 → Progress σ κ) :
    Resumable (fun bytes => ⟨s, .garbled e, bytes⟩) resume where
  done h := by simp at h
  garbled h := by
    simp only [Progress.mk.injEq, Ending.garbled.injEq] at h
    obtain ⟨rfl, rfl, rfl⟩ := h
    exact ⟨[], rfl, fun _ => rfl⟩
  dry h := by simp at h

theorem afterToken {read : Read α} (hr : read.Local) {s : σ} {k : κ}
    {next : α → List UInt8 → Progress σ κ} {resume : σ → κ → List UInt8 → Progress σ κ}
    (hnext : ∀ a bytes rest, read bytes = .done a rest → Resumable (next a) resume)
    (hagain : resume s k = Progress.afterToken read s k next) :
    Resumable (Progress.afterToken read s k next) resume where
  done {bytes s' rest} h := by
    unfold Progress.afterToken at h ⊢
    cases hread : read bytes with
    | dry => simp [hread] at h
    | garbled e middle => simp [hread] at h
    | done a middle =>
      simp only [hread] at h
      obtain ⟨used, rfl, hused⟩ := hr.done hread
      obtain ⟨used', rfl, hused'⟩ := (hnext a _ _ hread).done h
      exact ⟨used ++ used', by simp, fun more => by simp [hused, hused']⟩
  garbled {bytes s' e rest} h := by
    unfold Progress.afterToken at h ⊢
    cases hread : read bytes with
    | dry => simp [hread] at h
    | garbled e' middle =>
      simp only [hread, Progress.mk.injEq, Ending.garbled.injEq] at h
      obtain ⟨rfl, rfl, rfl⟩ := h
      obtain ⟨used, rfl, hused⟩ := hr.garbled hread
      exact ⟨used, rfl, fun more => by simp [hused]⟩
    | done a middle =>
      simp only [hread] at h
      obtain ⟨used, rfl, hused⟩ := hr.done hread
      obtain ⟨used', rfl, hused'⟩ := (hnext a _ _ hread).garbled h
      exact ⟨used ++ used', by simp, fun more => by simp [hused, hused']⟩
  dry {bytes s' k' rest} h := by
    cases hread : read bytes with
    | garbled e middle => simp [Progress.afterToken, hread] at h
    | dry =>
      simp only [Progress.afterToken, hread, Progress.mk.injEq, Ending.dry.injEq] at h
      obtain ⟨rfl, rfl, rfl⟩ := h
      refine ⟨[], rfl, fun more => by rw [hagain, List.nil_append], fun front hfront => ?_⟩
      rw [hagain, Progress.afterToken, hr.dry_prefix hread hfront]
    | done a middle =>
      simp only [Progress.afterToken, hread] at h
      obtain ⟨used, rfl, hused⟩ := hr.done hread
      obtain ⟨used', rfl, hused', hstuck⟩ := (hnext a _ _ hread).dry h
      exact ⟨used ++ used', by simp,
        fun more => by simp [Progress.afterToken, hused, hused'], hstuck⟩

theorem andThen {start : List UInt8 → Progress σ κ} {resume : σ → κ → List UInt8 → Progress σ κ}
    (hs : Resumable start resume) {f : σ → τ} {g : κ → μ} {next : σ → List UInt8 → Progress τ μ}
    {resume' : τ → μ → List UInt8 → Progress τ μ} (hnext : ∀ s, Resumable (next s) resume')
    (hagain : ∀ s k bytes rest, start bytes = ⟨s, .dry k, rest⟩ →
      resume' (f s) (g k) = Progress.andThen (resume s k) f g next) :
    Resumable (Progress.andThen start f g next) resume' where
  done {bytes s' rest} h := by
    unfold Progress.andThen at h ⊢
    rcases hp : start bytes with ⟨s, ending, middle⟩
    cases ending with
    | dry k => simp [hp] at h
    | garbled e => simp [hp] at h
    | done =>
      simp only [hp] at h
      obtain ⟨used, rfl, hused⟩ := hs.done hp
      obtain ⟨used', rfl, hused'⟩ := (hnext s).done h
      exact ⟨used ++ used', by simp, fun more => by simp [hused, hused']⟩
  garbled {bytes s' e rest} h := by
    unfold Progress.andThen at h ⊢
    rcases hp : start bytes with ⟨s, ending, middle⟩
    cases ending with
    | dry k => simp [hp] at h
    | garbled e' =>
      simp only [hp, Progress.mk.injEq, Ending.garbled.injEq] at h
      obtain ⟨rfl, rfl, rfl⟩ := h
      obtain ⟨used, rfl, hused⟩ := hs.garbled hp
      exact ⟨used, rfl, fun more => by simp [hused]⟩
    | done =>
      simp only [hp] at h
      obtain ⟨used, rfl, hused⟩ := hs.done hp
      obtain ⟨used', rfl, hused'⟩ := (hnext s).garbled h
      exact ⟨used ++ used', by simp, fun more => by simp [hused, hused']⟩
  dry {bytes s' k' rest} h := by
    rcases hp : start bytes with ⟨s, ending, middle⟩
    cases ending with
    | garbled e => simp [Progress.andThen, hp] at h
    | dry k =>
      simp only [Progress.andThen, hp, Progress.mk.injEq, Ending.dry.injEq] at h
      obtain ⟨rfl, rfl, rfl⟩ := h
      obtain ⟨used, rfl, hused, hstuck⟩ := hs.dry hp
      have again := hagain s k _ _ hp
      refine ⟨used, rfl, fun more => ?_, fun front hfront => ?_⟩
      · rw [again, Progress.andThen, Progress.andThen, hused]
      · rw [again, Progress.andThen, hstuck front hfront]
    | done =>
      simp only [Progress.andThen, hp] at h
      obtain ⟨used, rfl, hused⟩ := hs.done hp
      obtain ⟨used', rfl, hused', hstuck⟩ := (hnext s).dry h
      exact ⟨used ++ used', by simp, fun more => by simp [Progress.andThen, hused, hused'], hstuck⟩

/-- A resumable read as a part of something larger. -/
theorem within {start : List UInt8 → Progress σ κ} {resume : σ → κ → List UInt8 → Progress σ κ}
    (hs : Resumable start resume) {f : σ → τ} {g : κ → μ}
    {resume' : τ → μ → List UInt8 → Progress τ μ}
    (hagain : ∀ s k bytes rest, start bytes = ⟨s, .dry k, rest⟩ →
      ∀ more, resume' (f s) (g k) more = (resume s k more).within f g) :
    Resumable (fun bytes => (start bytes).within f g) resume' := by
  rw [Progress.within_eq_andThen]
  refine hs.andThen (fun s => finished (f s) resume') fun s k bytes rest h => ?_
  rw [← Progress.within_eq_andThen]
  exact funext (hagain s k bytes rest h)

/-! ## Going on -/

variable {start : List UInt8 → Progress σ κ} {resume : σ → κ → List UInt8 → Progress σ κ}

/-- A read that runs dry without bytes uses some of them if it comes to an end. -/
theorem length_lt_of_done (h : Resumable start resume) {s s' : σ} {k : κ} {bytes rest : List UInt8}
    (hnil : start [] = ⟨s, .dry k, []⟩) (hd : start bytes = ⟨s', .done, rest⟩) :
    rest.length < bytes.length := by
  obtain ⟨used, rfl, hused⟩ := h.done hd
  cases used with
  | nil => simpa [hnil] using hused []
  | cons b used =>
    rw [List.length_append, List.length_cons]
    omega

theorem length_lt_of_garbled (h : Resumable start resume) {s s' : σ} {k : κ} {e : DecodeError}
    {bytes rest : List UInt8} (hnil : start [] = ⟨s, .dry k, []⟩)
    (hg : start bytes = ⟨s', .garbled e, rest⟩) : rest.length < bytes.length := by
  obtain ⟨used, rfl, hused⟩ := h.garbled hg
  cases used with
  | nil => simpa [hnil] using hused []
  | cons b used =>
    rw [List.length_append, List.length_cons]
    omega

/-- What is gone on with can be cut anywhere as well. -/
theorem resumed (h : Resumable start resume) {s : σ} {k : κ} {bytes rest : List UInt8}
    (hdry : start bytes = ⟨s, .dry k, rest⟩) : Resumable (resume s k) resume := by
  obtain ⟨used, -, hused, hstuck⟩ := h.dry hdry
  have hstart : start used = ⟨s, .dry k, []⟩ := by
    have := hused []
    rwa [List.append_nil, hstuck [] (List.nil_prefix)] at this
  -- Whatever ends the read behind `used` has used all of it, since `used` alone runs dry.
  refine ⟨fun {b s' r} hb => ?_, fun {b s' e r} hb => ?_, fun {b s' k' r} hb => ?_⟩
  · rw [← hused] at hb
    obtain ⟨front, hfront, hmore⟩ := h.done hb
    rcases List.append_eq_append_iff.1 hfront with ⟨a, rfl, rfl⟩ | ⟨a, rfl, rfl⟩
    · rw [hmore] at hstart
      simp at hstart
    · exact ⟨a, rfl, fun more => by rw [← hused, ← List.append_assoc, hmore]⟩
  · rw [← hused] at hb
    obtain ⟨front, hfront, hmore⟩ := h.garbled hb
    rcases List.append_eq_append_iff.1 hfront with ⟨a, rfl, rfl⟩ | ⟨a, rfl, rfl⟩
    · rw [hmore] at hstart
      simp at hstart
    · exact ⟨a, rfl, fun more => by rw [← hused, ← List.append_assoc, hmore]⟩
  · rw [← hused] at hb
    obtain ⟨front, hfront, hmore, hstuck'⟩ := h.dry hb
    rcases List.append_eq_append_iff.1 hfront with ⟨a, rfl, rfl⟩ | ⟨a, rfl, rfl⟩
    · rw [hmore, hstuck' a (List.prefix_append a b)] at hstart
      obtain ⟨rfl, hk, rfl⟩ := Progress.mk.inj hstart
      obtain rfl := Ending.dry.inj hk
      exact ⟨[], rfl, fun more => rfl, hstuck'⟩
    · exact ⟨a, rfl, fun more => by rw [← hused, ← List.append_assoc, hmore], hstuck'⟩

end Resumable

end MarketFeed
