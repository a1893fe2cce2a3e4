import MarketFeed.Proofs.PresenceMap

/-!
# What a token costs

`Read.Costs` relates the value of a token to the number of its bytes. A run may be longer than its
value needs, but none is shorter than what is written for that value: neither an integer nor a text
nor a presence map.
-/

namespace MarketFeed

/-- Of the value that the read ends with, and of the number of bytes it took, `p` holds. -/
structure Read.Costs {α : Type} (read : Read α) (p : α → Nat → Prop) : Prop where
  of_done : ∀ {bytes a rest}, read bytes = .done a rest →
    ∃ n, n + rest.length = bytes.length ∧ p a n

namespace Read.Costs

variable {α β : Type} {p : α → Nat → Prop} {q : β → Nat → Prop}

theorem mono {read : Read α} {p' : α → Nat → Prop} (h : read.Costs p)
    (hp : ∀ a n, p a n → p' a n) : read.Costs p' where
  of_done hd := by
    obtain ⟨n, hn, ha⟩ := h.of_done hd
    exact ⟨n, hn, hp _ n ha⟩

theorem pure {a : α} (h : p a 0) : (Pure.pure a : Read α).Costs p where
  of_done hd := by
    obtain ⟨rfl, rfl⟩ := Outcome.done.inj hd
    exact ⟨0, Nat.zero_add _, h⟩

theorem fail (e : DecodeError) : (Read.fail e : Read α).Costs p where
  of_done hd := by cases hd

theorem ofExcept {x : Except DecodeError α} (h : ∀ a, x = .ok a → p a 0) :
    (Read.ofExcept x).Costs p := by
  cases x with
  | ok a => exact pure (h a rfl)
  | error e => exact fail e

theorem bind {read : Read α} {next : α → Read β} (hr : read.Costs p)
    (hn : ∀ a n, p a n → (next a).Costs fun b k => q b (n + k)) : (read >>= next).Costs q where
  of_done {bytes b rest} h := by
    simp only [Bind.bind, Read.bind] at h
    cases hread : read bytes with
    | dry => simp [hread] at h
    | garbled e rest => simp [hread] at h
    | done a middle =>
      rw [hread] at h
      obtain ⟨n, hn', ha⟩ := hr.of_done hread
      obtain ⟨k, hk, hb⟩ := (hn a n ha).of_done h
      exact ⟨n + k, by omega, hb⟩

theorem map {read : Read α} (hr : read.Costs p) {f : α → β} (hf : ∀ a n, p a n → q (f a) n) :
    (read >>= fun a => Pure.pure (f a)).Costs q :=
  hr.bind fun a n ha => .pure (hf a n ha)

theorem map_ofExcept {x : Except DecodeError α} {f : α → β} (h : ∀ a, x = .ok a → q (f a) 0) :
    (Read.ofExcept x >>= fun a => Pure.pure (f a)).Costs q := by
  cases x with
  | ok a => exact pure (h a rfl)
  | error e => exact fail e

theorem ite {c : Prop} [Decidable c] {read read' : Read α} (h : c → read.Costs p)
    (h' : ¬c → read'.Costs p) : (if c then read else read').Costs p := by
  split
  · exact h ‹_›
  · exact h' ‹_›

theorem take (k : Nat) : (Read.take k).Costs fun data n => n = k ∧ data.length = k where
  of_done {bytes data rest} h := by
    unfold Read.take at h
    split at h
    · next hk =>
      obtain ⟨rfl, rfl⟩ := Outcome.done.inj h
      refine ⟨k, ?_, rfl, List.length_take_of_le hk⟩
      rw [List.length_drop]
      omega
    · cases h

end Read.Costs

/-! ## Integers -/

theorem length_closeRun {run : List UInt8} (h : run ≠ []) : (closeRun run).length = run.length := by
  induction run with
  | nil => exact absurd rfl h
  | cons b run ih =>
    cases run with
    | nil => rfl
    | cons c run => rw [closeRun_cons (by simp), List.length_cons, ih (by simp)]; rfl

theorem length_closeRun_groups {count : Nat} (h : 0 < count) (n : Int) :
    (closeRun (groups count n)).length = count := by
  obtain ⟨count, rfl⟩ := Nat.exists_eq_add_of_lt h
  rw [length_closeRun (groups_ne_nil _ n), length_groups]

theorem uintSize_pos (v : UInt64) : 0 < uintSize v := by
  simp only [uintSize]
  omega

theorem intSize_pos (v : Int64) : 0 < intSize v := by
  simp only [intSize]
  omega

theorem length_writeUInt (v : UInt64) : (writeUInt v).length = uintSize v :=
  length_closeRun_groups (uintSize_pos v) _

theorem length_writeInt (v : Int64) : (writeInt v).length = intSize v :=
  length_closeRun_groups (intSize_pos v) _

/-- An unsigned run leads to less than the next number would with as many groups. -/
theorem readUIntFrom_costs (budget value : Nat) :
    (readUIntFrom budget value).Costs fun v n => 0 < n ∧ v.toNat < (value + 1) * 128 ^ n where
  of_done {bytes v rest} h := by
    induction budget generalizing value bytes with
    | zero => cases h
    | succ budget ih =>
      cases bytes with
      | nil => cases h
      | cons b bytes =>
        simp only [readUIntFrom] at h
        have hgroup : groupOf b < 128 := Nat.mod_lt _ (by decide)
        split at h
        · cases h
        · next hroom =>
          split at h
          · obtain ⟨rfl, rfl⟩ := Outcome.done.inj h
            refine ⟨1, by rw [List.length_cons]; omega, by decide, ?_⟩
            rw [UInt64.toNat_ofNat']
            omega
          · obtain ⟨n, hn, hpos, hlt⟩ := ih (value * 128 + groupOf b) h
            refine ⟨n + 1, by rw [List.length_cons]; omega, Nat.succ_pos n, ?_⟩
            calc v.toNat < (value * 128 + groupOf b + 1) * 128 ^ n := hlt
              _ ≤ ((value + 1) * 128) * 128 ^ n := Nat.mul_le_mul_right _ (by omega)
              _ = (value + 1) * 128 ^ (n + 1) := by ring

theorem readUInt_costs : readUInt.Costs fun v n => (writeUInt v).length ≤ n :=
  (readUIntFrom_costs maxIntegerBytes 0).mono fun v n ⟨hpos, hlt⟩ => by
    have hbits : bitLength v.toNat ≤ 7 * n := by
      refine bitLength_le ?_
      rw [Nat.pow_mul]
      simpa using hlt
    rw [length_writeUInt]
    simp only [uintSize]
    omega

/-- The groups behind the first one leave a signed run between its first group and the next. -/
theorem readIntFrom_costs (budget : Nat) (value : Int) (b : UInt8) :
    Read.Costs (fun bytes => readIntFrom budget value (b :: bytes)) fun v n =>
      (value * 128 + groupOf b) * 128 ^ n ≤ v.toInt ∧
        v.toInt < (value * 128 + groupOf b + 1) * 128 ^ n where
  of_done {bytes v rest} h := by
    induction budget generalizing value b bytes with
    | zero => cases h
    | succ budget ih =>
      simp only [readIntFrom] at h
      have hgroup : groupOf b < 128 := Nat.mod_lt _ (by decide)
      split at h
      · cases h
      · next hroom =>
        split at h
        · obtain ⟨rfl, rfl⟩ := Outcome.done.inj h
          refine ⟨0, Nat.zero_add _, ?_⟩
          rw [Int64.toInt_ofInt_of_le (by omega) (by omega)]
          omega
        · cases bytes with
          | nil => cases budget <;> cases h
          | cons c bytes =>
            obtain ⟨n, hn, hle, hlt⟩ := ih (value * 128 + groupOf b) c h
            have hgroup' : groupOf c < 128 := Nat.mod_lt _ (by decide)
            have hp : (0 : Int) < 128 ^ n := pow_pos (by decide) n
            generalize value * 128 + (groupOf b : Int) = w at hle hlt ⊢
            refine ⟨n + 1, by rw [List.length_cons]; omega, ?_, ?_⟩
            · calc w * 128 ^ (n + 1) = (w * 128) * 128 ^ n := by ring
                _ ≤ (w * 128 + groupOf c) * 128 ^ n :=
                  Int.mul_le_mul_of_nonneg_right (by omega) hp.le
                _ ≤ v.toInt := hle
            · calc v.toInt < (w * 128 + groupOf c + 1) * 128 ^ n := hlt
                _ ≤ ((w + 1) * 128) * 128 ^ n := Int.mul_le_mul_of_nonneg_right (by omega) hp.le
                _ = (w + 1) * 128 ^ (n + 1) := by ring

theorem intSize_le {v : Int64} {n : Nat} (hlo : -(64 * 128 ^ n) ≤ v.toInt)
    (hhi : v.toInt < 64 * 128 ^ n) : intSize v ≤ n + 1 := by
  have hbits (m : Nat) (hm : (m : Int) < 64 * 128 ^ n) : bitLength m ≤ 6 + 7 * n := by
    refine bitLength_le ?_
    rw [Nat.pow_add, Nat.pow_mul]
    exact_mod_cast hm
  simp only [intSize]
  have := hbits (if 0 ≤ v.toInt then v.toInt else -v.toInt - 1).toNat (by split <;> omega)
  omega

theorem readInt_costs : readInt.Costs fun v n => (writeInt v).length ≤ n where
  of_done {bytes v rest} h := by
    cases bytes with
    | nil => cases h
    | cons b bytes =>
      obtain ⟨n, hn, hle, hlt⟩ := (readIntFrom_costs maxIntegerBytes _ b).of_done h
      have hgroup : groupOf b < 128 := Nat.mod_lt _ (by decide)
      have hp : (0 : Int) < 128 ^ n := pow_pos (by decide) n
      have hsize : intSize v ≤ n + 1 := by
        refine intSize_le ?_ ?_
        · refine Int.le_trans ?_ hle
          rw [← Int.neg_mul]
          exact Int.mul_le_mul_of_nonneg_right (by split <;> omega) hp.le
        · refine Int.lt_of_lt_of_le hlt ?_
          exact Int.mul_le_mul_of_nonneg_right (by split <;> omega) hp.le
      refine ⟨n + 1, by rw [List.length_cons]; omega, ?_⟩
      rw [length_writeInt]
      exact hsize

/-! ## Texts and presence maps -/

theorem readTextFrom_costs (budget : Nat) :
    (readTextFrom budget).Costs fun run n =>
      run.length = n ∧ run ≠ [] ∧ n ≤ budget ∧ ∀ b ∈ run, b.toNat < 128 where
  of_done {bytes run rest} h := by
    induction budget generalizing bytes run with
    | zero => cases h
    | succ budget ih =>
      cases bytes with
      | nil => cases h
      | cons b bytes =>
        have hsmall : (b &&& 127).toNat < 128 := by
          rw [and_127_toNat]
          exact Nat.mod_lt _ (by decide)
        simp only [readTextFrom] at h
        split at h
        · obtain ⟨rfl, rfl⟩ := Outcome.done.inj h
          exact ⟨1, Nat.add_comm .., rfl, by simp, by omega, by simpa using hsmall⟩
        · split at h
          · next hread =>
            obtain ⟨rfl, rfl⟩ := Outcome.done.inj h
            obtain ⟨n, hn, hlen, -, hle, hall⟩ := ih hread
            refine ⟨n + 1, by rw [List.length_cons]; omega, by rw [List.length_cons, hlen], by simp,
              by omega, ?_⟩
            exact List.forall_mem_cons.2 ⟨hsmall, hall⟩
          · cases h
          · cases h

theorem length_writeText {run : List UInt8} (h : run ≠ []) :
    (writeText run).length = run.length := by
  rw [writeText, length_closeRun (by simpa using h), List.length_map]

namespace PresenceMap

theorem readGroups_costs (budget : Nat) :
    (readGroups budget).Costs fun gs n => gs.1.length = n ∧ 0 < n where
  of_done {bytes gs rest} h := by
    induction budget generalizing bytes with
    | zero => cases h
    | succ budget ih =>
      cases bytes with
      | nil => cases h
      | cons b bytes =>
        simp only [readGroups] at h
        split at h
        · obtain ⟨rfl, rfl⟩ := Outcome.done.inj h
          exact ⟨1, Nat.add_comm .., rfl, by decide⟩
        · split at h
          · next gs hgs rest' hread =>
            obtain ⟨rfl, rfl⟩ := Outcome.done.inj h
            obtain ⟨n, hn, hlen, -⟩ := ih hread
            exact ⟨n + 1, by rw [List.length_cons]; omega, congrArg (· + 1) hlen, Nat.succ_pos n⟩
          · cases h
          · cases h

theorem read_costs : read.Costs fun map n => map.groups.length = n ∧ 0 < n :=
  (readGroups_costs maxGroups).bind fun _ _ h => .pure h

/-- The last of the groups that are sent is not zero. -/
theorem ne_zero_of_significant {m : PresenceMap} {gs : List (BitVec 7)} {g : BitVec 7}
    (h : m.significant = gs ++ [g]) : g ≠ 0 := by
  have hhead := List.head?_dropWhile_not (· == 0) m.groups.reverse
  have hreverse : m.groups.reverse.dropWhile (· == 0) = (gs ++ [g]).reverse := by
    rw [← h, significant, List.reverse_reverse]
  rw [hreverse, List.reverse_append] at hhead
  simpa using hhead

theorem exists_isSet_significant {m : PresenceMap} {gs : List (BitVec 7)} {g : BitVec 7}
    (h : m.significant = gs ++ [g]) : ∃ i, i / 7 = gs.length ∧ m.isSet i = true := by
  have hg := ne_zero_of_significant h
  obtain ⟨j, hj, hbit⟩ : ∃ j < 7, g.getMsbD j = true := by
    by_contra hnone
    refine hg (BitVec.eq_of_getMsbD_eq fun j hj => ?_)
    have hclear : g.getMsbD j = false := Bool.eq_false_iff.2 fun hbit => hnone ⟨j, hj, hbit⟩
    rw [hclear]
    exact BitVec.getMsbD_zero.symm
  obtain ⟨n, hn⟩ := m.significant_append
  refine ⟨7 * gs.length + j, by omega, ?_⟩
  rw [isSet_eq_bitAt, hn, bitAt_append_zeros, h, bitAt, show (7 * gs.length + j) / 7 = gs.length by
    omega, show (7 * gs.length + j) % 7 = j by omega, List.getElem?_concat_length]
  exact hbit

theorem lt_length_of_isSet {m : PresenceMap} {bit : Nat} (h : m.isSet bit = true) :
    bit / 7 < m.groups.length := by
  rw [isSet, Option.any_eq_true] at h
  obtain ⟨g, hg, -⟩ := h
  exact (List.getElem?_eq_some_iff.1 hg).1

/-- Every bit of the one map is set in the other as well. -/
def Within (m m' : PresenceMap) : Prop := ∀ i, m.isSet i = true → m'.isSet i = true

theorem empty_within (m : PresenceMap) : empty.Within m := fun i h => by
  rw [isSet_empty] at h
  cases h

theorem Within.length_significant_le {m m' : PresenceMap} (h : m.Within m') :
    m.significant.length ≤ m'.groups.length := by
  rcases List.eq_nil_or_concat m.significant with hnil | ⟨gs, g, hgs⟩
  · rw [hnil]
    exact Nat.zero_le _
  · rw [List.concat_eq_append] at hgs
    obtain ⟨i, hi, hset⟩ := exists_isSet_significant hgs
    rw [hgs, List.length_append, List.length_singleton, ← hi]
    exact lt_length_of_isSet (h i hset)

theorem length_write (m : PresenceMap) : m.write.length = max 1 m.significant.length := by
  rw [write]
  rcases hs : m.significant with _ | ⟨g, gs⟩
  · rfl
  · rw [length_closeRun (by simp), List.length_map, List.length_cons]
    omega

theorem exists_set? {m m' : PresenceMap} {bit : Nat} (h : m'.isSet bit = true) :
    ∃ marked, m.set? bit = some marked := by
  rw [set?, dif_pos (Nat.lt_of_lt_of_le (lt_length_of_isSet h) m'.size_le)]
  exact ⟨_, rfl⟩

/-- What is written of a map that is within the one that was read is no longer. -/
theorem Within.length_write_le {m m' : PresenceMap} (h : m.Within m') {n : Nat}
    (hm' : m'.groups.length = n ∧ 0 < n) : m.write.length ≤ n := by
  have := h.length_significant_le
  rw [length_write]
  omega

end PresenceMap

end MarketFeed
