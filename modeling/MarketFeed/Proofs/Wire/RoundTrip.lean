import MarketFeed.Field.Encode
import Mathlib.Tactic.Linarith
import Mathlib.Tactic.Ring

/-!
# What is written is read back

`Read.Takes` is the law of a token: the read takes exactly its bytes off whatever they stand in
front of. It is shown here of runs, integers, texts and vectors.
-/

namespace MarketFeed

/-- The bytes are one token of the read: it takes them off, whatever follows, and gives `a`. -/
def Read.Takes {α : Type} (read : Read α) (bytes : List UInt8) (a : α) : Prop :=
  ∀ rest, read (bytes ++ rest) = .done a rest

namespace Read.Takes

variable {α β : Type}

theorem pure (a : α) : (Pure.pure a : Read α).Takes [] a := fun _ => rfl

theorem bind {read : Read α} {next : α → Read β} {front back : List UInt8} {a : α} {b : β}
    (h : read.Takes front a) (hn : (next a).Takes back b) :
    (read >>= next).Takes (front ++ back) b := fun rest => by
  have : (read >>= next) (front ++ back ++ rest) = next a (back ++ rest) := by
    simp only [Bind.bind, Read.bind]
    rw [List.append_assoc, h]
  rw [this, hn]

/-- What comes behind the token without reading more is part of the token. -/
theorem bind_nil {read : Read α} {next : α → Read β} {bytes : List UInt8} {a : α} {b : β}
    (h : read.Takes bytes a) (hn : (next a).Takes [] b) : (read >>= next).Takes bytes b := by
  have := h.bind hn
  rwa [List.append_nil] at this

theorem map {read : Read α} {bytes : List UInt8} {a : α} (h : read.Takes bytes a) (f : α → β) :
    (read >>= fun a => Pure.pure (f a)).Takes bytes (f a) :=
  h.bind_nil (.pure (f a))

theorem take (bytes : List UInt8) : (Read.take bytes.length).Takes bytes bytes := fun rest => by
  simp [Read.take]

end Read.Takes

/-! ## Bytes of a run -/

theorem and_127_toNat (b : UInt8) : (b &&& 127).toNat = b.toNat % 128 := by
  rw [UInt8.toNat_and]
  exact Nat.and_two_pow_sub_one_eq_mod b.toNat 7

theorem or_128_toNat {b : UInt8} (h : b.toNat < 128) : (b ||| 128).toNat = b.toNat + 128 := by
  rw [UInt8.toNat_or, Nat.or_comm, Nat.add_comm]
  exact (Nat.two_pow_add_eq_or_of_lt (i := 7) h 1).symm

theorem isStop_eq_false {b : UInt8} (h : b.toNat < 128) : isStop b = false := by
  simp only [isStop, decide_eq_false_iff_not, UInt8.le_iff_toNat_le]
  exact Nat.not_le.2 h

theorem isStop_or_128 {b : UInt8} (h : b.toNat < 128) : isStop (b ||| 128) = true := by
  simp only [isStop, decide_eq_true_eq, UInt8.le_iff_toNat_le, or_128_toNat h]
  exact Nat.le_add_left 128 b.toNat

theorem groupOf_of_lt {b : UInt8} (h : b.toNat < 128) : groupOf b = b.toNat :=
  Nat.mod_eq_of_lt h

theorem groupOf_or_128 {b : UInt8} (h : b.toNat < 128) : groupOf (b ||| 128) = b.toNat := by
  rw [groupOf, or_128_toNat h]
  omega

theorem and_127_of_lt {b : UInt8} (h : b.toNat < 128) : b &&& 127 = b := by
  apply UInt8.toNat_inj.1
  rw [and_127_toNat, Nat.mod_eq_of_lt h]

theorem or_128_and_127 {b : UInt8} (h : b.toNat < 128) : (b ||| 128) &&& 127 = b := by
  apply UInt8.toNat_inj.1
  rw [and_127_toNat, or_128_toNat h]
  omega

theorem closeRun_cons {bs : List UInt8} (h : bs ≠ []) (b : UInt8) :
    closeRun (b :: bs) = b :: closeRun bs := by
  cases bs with
  | nil => exact absurd rfl h
  | cons c bs => rfl

/-! ## Integers -/

theorem length_groups (count : Nat) (n : Int) : (groups count n).length = count := by
  induction count generalizing n with
  | zero => rfl
  | succ count ih => simp [groups, ih]

theorem groups_ne_nil (count : Nat) (n : Int) : groups (count + 1) n ≠ [] := by
  rw [← List.length_pos_iff, length_groups]
  omega

/-- The most significant group in front of the others. -/
theorem groups_succ (count : Nat) (n : Int) :
    groups (count + 1) n = .ofNat (n / 128 ^ count % 128).toNat :: groups count n := by
  induction count generalizing n with
  | zero => simp [groups]
  | succ count ih =>
    rw [groups, ih, groups, List.cons_append, Int.ediv_ediv_of_nonneg (by decide), ← Int.pow_succ']

theorem toNat_group (n : Int) : ((UInt8.ofNat (n % 128).toNat).toNat : Int) = n % 128 := by
  have := Int.emod_nonneg n (b := 128) (by decide)
  have := Int.emod_lt_of_pos n (b := 128) (by decide)
  rw [UInt8.toNat_ofNat']
  omega

theorem toNat_group_lt (n : Int) : (UInt8.ofNat (n % 128).toNat).toNat < 128 := by
  have := toNat_group n
  have := Int.emod_lt_of_pos n (b := 128) (by decide)
  omega

/-- The number that the groups of `n` lead to from `value`, the groups before them. -/
def appendGroups (value : Int) (count : Nat) (n : Int) : Int :=
  value * 128 ^ count + n % 128 ^ count

theorem appendGroups_succ (value : Int) (count : Nat) (n : Int) :
    appendGroups (value * 128 + n / 128 ^ count % 128) count n =
      appendGroups value (count + 1) n := by
  have h₁ := Int.emod_def n (128 ^ count)
  have h₂ := Int.emod_def n (128 ^ (count + 1))
  have h₃ := Int.emod_def (n / 128 ^ count) 128
  rw [Int.ediv_ediv_of_nonneg (Int.pow_nonneg (by decide)), ← Int.pow_succ] at h₃
  simp only [appendGroups]
  rw [h₁, h₂, h₃]
  ring

theorem emod_pow_bounds (n : Int) (count : Nat) :
    0 ≤ n % 128 ^ count ∧ n % 128 ^ count < 128 ^ count := by
  have hp : (0 : Int) < 128 ^ count := pow_pos (by decide) count
  exact ⟨Int.emod_nonneg n (Int.ne_of_gt hp), Int.emod_lt_of_pos n hp⟩

/-- Groups that lead to a signed word leave room for them all the way. -/
theorem value_of_appendGroups_int {value n : Int} {count : Nat}
    (hlo : -2 ^ 63 ≤ appendGroups value (count + 1) n)
    (hhi : appendGroups value (count + 1) n < 2 ^ 63) : -2 ^ 56 ≤ value ∧ value < 2 ^ 56 := by
  have hp : (0 : Int) < 128 ^ count := pow_pos (by decide) count
  have hr := emod_pow_bounds n (count + 1)
  simp only [appendGroups, Int.pow_succ] at hlo hhi hr
  constructor
  · by_contra hlt
    nlinarith
  · by_contra hlt
    nlinarith

theorem value_of_appendGroups_uint {value n : Int} {count : Nat}
    (hhi : appendGroups value (count + 1) n < 2 ^ 64) : value < 2 ^ 57 := by
  have hp : (0 : Int) < 128 ^ count := pow_pos (by decide) count
  have hr := emod_pow_bounds n (count + 1)
  simp only [appendGroups, Int.pow_succ] at hhi hr
  by_contra hlt
  nlinarith

theorem readIntFrom_takes {count budget : Nat} (hb : count < budget) {value n : Int}
    (hlo : -2 ^ 63 ≤ appendGroups value (count + 1) n)
    (hhi : appendGroups value (count + 1) n < 2 ^ 63) :
    Read.Takes (readIntFrom budget value) (closeRun (groups (count + 1) n))
      (.ofInt (appendGroups value (count + 1) n)) := by
  intro rest
  induction count generalizing budget value with
  | zero =>
    obtain ⟨budget, rfl⟩ := Nat.exists_eq_add_of_lt hb
    have hroom := value_of_appendGroups_int hlo hhi
    simp only [groups, closeRun, List.cons_append, List.nil_append, readIntFrom]
    rw [if_neg (by omega), if_pos (isStop_or_128 (toNat_group_lt _)),
      groupOf_or_128 (toNat_group_lt _), toNat_group]
    simp [appendGroups]
  | succ count ih =>
    obtain ⟨budget, rfl⟩ : ∃ b, budget = b + 1 := ⟨budget - 1, by omega⟩
    have hroom := value_of_appendGroups_int hlo hhi
    rw [groups_succ, closeRun_cons (groups_ne_nil count n), List.cons_append, readIntFrom]
    rw [if_neg (by omega), isStop_eq_false (toNat_group_lt _), groupOf_of_lt (toNat_group_lt _),
      toNat_group]
    rw [← appendGroups_succ] at hlo hhi ⊢
    exact ih (by omega) hlo hhi

theorem readUIntFrom_takes {count budget : Nat} (hb : count < budget) {value : Nat} {n : Int}
    (hhi : appendGroups value (count + 1) n < 2 ^ 64) :
    Read.Takes (readUIntFrom budget value) (closeRun (groups (count + 1) n))
      (.ofNat (appendGroups value (count + 1) n).toNat) := by
  intro rest
  induction count generalizing budget value with
  | zero =>
    obtain ⟨budget, rfl⟩ := Nat.exists_eq_add_of_lt hb
    have hroom := value_of_appendGroups_uint hhi
    have hgroup := toNat_group n
    simp only [groups, closeRun, List.cons_append, List.nil_append, readUIntFrom]
    rw [if_neg (by omega), if_pos (isStop_or_128 (toNat_group_lt _)),
      groupOf_or_128 (toNat_group_lt _)]
    congr 2
    simp only [appendGroups]
    omega
  | succ count ih =>
    obtain ⟨budget, rfl⟩ : ∃ b, budget = b + 1 := ⟨budget - 1, by omega⟩
    have hroom := value_of_appendGroups_uint hhi
    have hgroup := toNat_group (n / 128 ^ (count + 1))
    have hlt := toNat_group_lt (n / 128 ^ (count + 1))
    rw [groups_succ, closeRun_cons (groups_ne_nil count n), List.cons_append]
    generalize UInt8.ofNat (n / 128 ^ (count + 1) % 128).toNat = b at hlt hgroup ⊢
    rw [← appendGroups_succ, ← hgroup] at hhi ⊢
    rw [readUIntFrom, if_neg (by omega), isStop_eq_false hlt, groupOf_of_lt hlt]
    have := @ih budget (by omega) (value * 128 + b.toNat) (by push_cast; exact hhi)
    push_cast at this
    exact this

/-! ## The size of a run -/

theorem lt_two_pow_bitLength (n : Nat) : n < 2 ^ bitLength n := by
  unfold bitLength
  split
  · next h => simp [h]
  · exact Nat.lt_log2_self

theorem bitLength_le {n k : Nat} (h : n < 2 ^ k) : bitLength n ≤ k := by
  unfold bitLength
  split
  · omega
  · next hn => exact (Nat.log2_lt hn).2 h

theorem writeUInt_takes (v : UInt64) : readUInt.Takes (writeUInt v) v := by
  have hlt := v.toNat_lt
  have hbits := bitLength_le hlt
  obtain ⟨count, hcount⟩ : ∃ count, uintSize v = count + 1 := ⟨uintSize v - 1, by
    simp only [uintSize]
    omega⟩
  have hsize : v.toNat < 128 ^ (count + 1) := by
    refine Nat.lt_of_lt_of_le (lt_two_pow_bitLength v.toNat) ?_
    rw [show 128 = 2 ^ 7 from rfl, ← Nat.pow_mul]
    refine Nat.pow_le_pow_right (by decide) ?_
    simp only [uintSize] at hcount
    omega
  have happend : appendGroups (0 : Nat) (count + 1) v.toNat = v.toNat := by
    simp only [appendGroups, Int.natCast_zero, Int.zero_mul, Int.zero_add]
    exact Int.emod_eq_of_lt (by omega) (by exact_mod_cast hsize)
  have := @readUIntFrom_takes count maxIntegerBytes
    (by simp only [uintSize, maxIntegerBytes] at hcount ⊢; omega) 0 v.toNat
    (by rw [happend]; exact_mod_cast hlt)
  rw [happend] at this
  rw [writeUInt, hcount]
  simpa [readUInt] using this

theorem natAbs_lt_of_intSize {v : Int64} {count : Nat} (h : intSize v = count + 1) :
    -(64 * 128 ^ count) ≤ v.toInt ∧ v.toInt < 64 * 128 ^ count := by
  have hbits (n : Nat) (hn : (bitLength n + 1 + 6) / 7 = count + 1) :
      (n : Int) < 64 * 128 ^ count := by
    have hlt := lt_two_pow_bitLength n
    have hle : 2 ^ bitLength n ≤ 64 * 128 ^ count := by
      rw [show 64 = 2 ^ 6 from rfl, show 128 = 2 ^ 7 from rfl, ← Nat.pow_mul, ← Nat.pow_add]
      exact Nat.pow_le_pow_right (by decide) (by omega)
    exact_mod_cast Nat.lt_of_lt_of_le hlt hle
  simp only [intSize] at h
  have := hbits _ h
  split at this <;> omega

/-- The first group of a run says by its sign bit what the integer counts from. -/
theorem appendGroups_of_sign {n : Int} {count : Nat} (hlo : -(64 * 128 ^ count) ≤ n)
    (hhi : n < 64 * 128 ^ count) :
    appendGroups (if 64 ≤ n / 128 ^ count % 128 then -1 else 0) (count + 1) n = n := by
  have hp : (0 : Int) < 128 ^ count := pow_pos (by decide) count
  simp only [appendGroups, Int.pow_succ]
  rcases Int.lt_or_le n 0 with hn | hn
  · have hq : -64 ≤ n / 128 ^ count := by
      rw [Int.le_ediv_iff_mul_le hp]
      omega
    have hq' : n / 128 ^ count < 0 := Int.ediv_neg_of_neg_of_pos hn hp
    have hmod : (n + 128 ^ count * 128) % (128 ^ count * 128) = n + 128 ^ count * 128 :=
      Int.emod_eq_of_lt (by omega) (by omega)
    rw [Int.add_emod_right] at hmod
    rw [if_pos (by omega), hmod]
    omega
  · have hq : n / 128 ^ count < 64 := Int.ediv_lt_of_lt_mul hp hhi
    have hq' : 0 ≤ n / 128 ^ count := Int.ediv_nonneg hn (Int.le_of_lt hp)
    rw [if_neg (by omega), Int.zero_mul, Int.zero_add]
    exact Int.emod_eq_of_lt hn (by omega)

theorem writeInt_takes (v : Int64) : readInt.Takes (writeInt v) v := by
  have hlo := v.le_toInt
  have hhi := v.toInt_lt
  obtain ⟨count, hcount⟩ : ∃ count, intSize v = count + 1 := ⟨intSize v - 1, by
    simp only [intSize]
    omega⟩
  have hbudget : count < maxIntegerBytes := by
    have hmagnitude : ((if 0 ≤ v.toInt then v.toInt else -v.toInt - 1).toNat) < 2 ^ 63 := by
      split <;> omega
    have := bitLength_le hmagnitude
    simp only [intSize, maxIntegerBytes] at hcount ⊢
    omega
  have hn := natAbs_lt_of_intSize hcount
  have hsign := appendGroups_of_sign hn.1 hn.2
  have htakes := readIntFrom_takes hbudget (by rw [hsign]; exact hlo) (by rw [hsign]; exact hhi)
  rw [hsign] at htakes
  have hgroup := toNat_group (v.toInt / 128 ^ count)
  have hlt := toNat_group_lt (v.toInt / 128 ^ count)
  intro rest
  -- The reader looks at the first byte before the run is read.
  obtain ⟨b, bs, hrun, hb⟩ : ∃ b bs, closeRun (groups (count + 1) v.toInt) = b :: bs ∧
      (groupOf b : Int) = v.toInt / 128 ^ count % 128 := by
    rw [groups_succ]
    cases count with
    | zero => exact ⟨_, [], rfl, by rw [groupOf_or_128 hlt]; exact hgroup⟩
    | succ count =>
      rw [closeRun_cons (groups_ne_nil count v.toInt)]
      exact ⟨_, _, rfl, by rw [groupOf_of_lt hlt]; exact hgroup⟩
  have := htakes rest
  rw [writeInt, hcount, hrun, List.cons_append]
  rw [hrun, List.cons_append, ← hb] at this
  rw [readInt]
  simpa using this

/-! ## Texts and vectors -/

theorem readTextFrom_takes {budget : Nat} {run : List UInt8} (hne : run ≠ [])
    (hsmall : ∀ b ∈ run, b.toNat < 128) (hlen : run.length ≤ budget) :
    Read.Takes (readTextFrom budget) (closeRun run) run := by
  intro rest
  induction run generalizing budget with
  | nil => exact absurd rfl hne
  | cons b run ih =>
    obtain ⟨budget, rfl⟩ : ∃ k, budget = k + 1 := ⟨budget - 1, by simp at hlen; omega⟩
    have hb := hsmall b (by simp)
    cases run with
    | nil =>
      simp only [closeRun, List.cons_append, List.nil_append, readTextFrom]
      rw [if_pos (isStop_or_128 hb), or_128_and_127 hb]
    | cons c run =>
      have := @ih budget (by simp) (fun d hd => hsmall d (List.mem_cons_of_mem b hd))
        (by simpa using hlen)
      rw [closeRun_cons (by simp), List.cons_append, readTextFrom, isStop_eq_false hb, this,
        and_127_of_lt hb]
      rfl

theorem writeText_takes {run : List UInt8} (hne : run ≠ []) (hsmall : ∀ b ∈ run, b.toNat < 128)
    (hlen : run.length ≤ maxTextBytes) : readText.Takes (writeText run) run := by
  have hmask : run.map (· &&& 127) = run := by
    rw [List.map_congr_left fun b hb => and_127_of_lt (hsmall b hb)]
    exact List.map_id run
  rw [writeText, hmask]
  exact readTextFrom_takes hne hsmall hlen

end MarketFeed
