import MarketFeed.Proofs.Wire.Cost
import Mathlib.Data.Nat.Digits.Lemmas

/-!
# Integers as runs

A run has the stop bit on its last byte and on no other. What an integer is read from is a run of at
most ten bytes that stands for a word, and what it is written as is the shortest such run. Both kinds
of integers are read in one way, from another start and with room for other numbers: `readWordFrom`.
-/

namespace MarketFeed

/-- The stop bit is on the last byte and on no other. -/
inductive IsRun : List UInt8 → Prop
  | last {b : UInt8} (h : isStop b = true) : IsRun [b]
  | cons {b : UInt8} {run : List UInt8} (h : isStop b = false) (hrun : IsRun run) : IsRun (b :: run)

/-- Bytes begin with a run of at most `budget`, or they end without one, or go on beyond that. -/
theorem run_cases (budget : Nat) (bytes : List UInt8) :
    (∃ run rest, bytes = run ++ rest ∧ IsRun run ∧ run.length ≤ budget) ∨
      (bytes.length < budget ∧ ∀ b ∈ bytes, isStop b = false) ∨
      (budget ≤ bytes.length ∧ ∀ b ∈ bytes.take budget, isStop b = false) := by
  induction budget generalizing bytes with
  | zero => exact .inr (.inr ⟨Nat.zero_le _, by simp⟩)
  | succ budget ih =>
    cases bytes with
    | nil => exact .inr (.inl ⟨Nat.succ_pos _, by simp⟩)
    | cons b bytes =>
      cases hb : isStop b with
      | true => exact .inl ⟨[b], bytes, rfl, .last hb, Nat.succ_le_succ (Nat.zero_le _)⟩
      | false =>
        rcases ih bytes with ⟨run, rest, rfl, hrun, hlen⟩ | ⟨hlen, hall⟩ | ⟨hlen, hall⟩
        · exact .inl ⟨b :: run, rest, rfl, .cons hb hrun, Nat.succ_le_succ hlen⟩
        · exact .inr (.inl ⟨Nat.succ_lt_succ hlen, List.forall_mem_cons.2 ⟨hb, hall⟩⟩)
        · refine .inr (.inr ⟨Nat.succ_le_succ hlen, ?_⟩)
          rw [List.take_succ_cons]
          exact List.forall_mem_cons.2 ⟨hb, hall⟩

/-! ## What a run stands for -/

/-- The number whose digits are the groups, the most significant one first. -/
def unsignedOf (run : List UInt8) : Nat := Nat.ofDigits 128 (run.reverse.map groupOf)

/-- The same in two's complement: the sign is bit `0x40` of the first byte. -/
def signedOf (run : List UInt8) : Int :=
  if run.head?.any (·.toNat.testBit 6) then unsignedOf run - 128 ^ run.length else unsignedOf run

theorem groupOf_lt (b : UInt8) : groupOf b < 128 := Nat.mod_lt _ (by decide)

theorem unsignedOf_cons (b : UInt8) (run : List UInt8) :
    unsignedOf (b :: run) = groupOf b * 128 ^ run.length + unsignedOf run := by
  simp only [unsignedOf, List.reverse_cons, List.map_append, List.map_cons, List.map_nil,
    Nat.ofDigits_append, Nat.ofDigits_singleton, List.length_map, List.length_reverse]
  ring

theorem unsignedOf_lt (run : List UInt8) : unsignedOf run < 128 ^ run.length := by
  have h := Nat.ofDigits_lt_base_pow_length (b := 128) (l := run.reverse.map groupOf) (by decide)
    fun d hd => by
      obtain ⟨b, -, rfl⟩ := List.mem_map.1 hd
      exact groupOf_lt b
  rwa [List.length_map, List.length_reverse] at h

/-- What a run leads to from `value`, the number of the groups before it. -/
def valueFrom (value : Int) (run : List UInt8) : Int :=
  value * 128 ^ run.length + unsignedOf run

theorem valueFrom_cons (value : Int) (b : UInt8) (run : List UInt8) :
    valueFrom value (b :: run) = valueFrom (value * 128 + groupOf b) run := by
  simp only [valueFrom, unsignedOf_cons, List.length_cons]
  push_cast
  ring

theorem signBit_iff (b : UInt8) : b.toNat.testBit 6 = true ↔ 64 ≤ groupOf b := by
  rw [Nat.testBit_eq_decide_div_mod_eq, decide_eq_true_iff, groupOf]
  omega

/-- A negative integer starts from all ones to the left of its run. -/
def startOf : List UInt8 → Int
  | [] => 0
  | b :: _ => if 64 ≤ groupOf b then -1 else 0

theorem valueFrom_startOf {run : List UInt8} (h : run ≠ []) (rest : List UInt8) :
    valueFrom (startOf (run ++ rest)) run = signedOf run := by
  obtain ⟨b, bytes, rfl⟩ := List.exists_cons_of_ne_nil h
  simp only [List.cons_append, startOf, signedOf, List.head?_cons, Option.any_some, signBit_iff]
  split
  · rw [valueFrom]
    ring
  · rw [valueFrom]
    ring

/-! ## Reading -/

section

variable {α : Type} (low high : Int) (word : Int → α)

/--
Reads on from `value` as integers are read: a number has room for another group if it is at least
`low` and below `high`.
-/
def readWordFrom : Nat → Int → Read α
  | 0, _, bytes => .garbled .integerOverflow bytes
  | _ + 1, _, [] => .dry
  | budget + 1, value, b :: rest =>
    if value < low ∨ high ≤ value then .garbled .integerOverflow rest
    else
      let value := value * 128 + groupOf b
      if isStop b then .done (word value) rest else readWordFrom budget value rest

variable {low high word} {budget : Nat} {value : Int} {bytes run : List UInt8}

/-- A number without room for another group does not get it back behind the run. -/
theorem not_fits_of_no_room (hlow : low ≤ 0) (hhigh : 0 ≤ high)
    (h : value < low ∨ high ≤ value) (hne : run ≠ []) :
    ¬(low * 128 ≤ valueFrom value run ∧ valueFrom value run < high * 128) := by
  have hpos : (0 : Int) ≤ unsignedOf run := Int.natCast_nonneg _
  have hu : (unsignedOf run : Int) < 128 ^ run.length := mod_cast unsignedOf_lt run
  have hp : (128 : Int) ≤ 128 ^ run.length :=
    le_self_pow₀ (by decide) (List.length_pos_iff.2 hne).ne'
  rw [valueFrom]
  generalize (unsignedOf run : Int) = u at hpos hu ⊢
  generalize (128 : Int) ^ run.length = p at hu hp ⊢
  rintro ⟨hle, hlt⟩
  rcases h with h | h
  · have : low * 128 < low * 128 := calc
      low * 128 ≤ value * p + u := hle
      _ < (value + 1) * p := by rw [Int.add_mul, Int.one_mul]; omega
      _ ≤ low * p := Int.mul_le_mul_of_nonneg_right h (by omega)
      _ ≤ low * 128 := Int.mul_le_mul_of_nonpos_left hlow hp
    omega
  · have : high * 128 < high * 128 := calc
      high * 128 ≤ high * p := Int.mul_le_mul_of_nonneg_left hp hhigh
      _ ≤ value * p := Int.mul_le_mul_of_nonneg_right h (by omega)
      _ ≤ value * p + u := Int.le_add_of_nonneg_right hpos
      _ < high * 128 := hlt
    omega

theorem valueFrom_singleton (b : UInt8) : valueFrom value [b] = value * 128 + groupOf b := by
  simp [valueFrom, unsignedOf]

theorem readWordFrom_run (hlow : low ≤ 0) (hhigh : 0 ≤ high) (hrun : IsRun run)
    (hlen : run.length ≤ budget) (rest : List UInt8) :
    (low * 128 ≤ valueFrom value run ∧ valueFrom value run < high * 128 →
      readWordFrom low high word budget value (run ++ rest) =
        .done (word (valueFrom value run)) rest) ∧
    (¬(low * 128 ≤ valueFrom value run ∧ valueFrom value run < high * 128) →
      ∃ left, readWordFrom low high word budget value (run ++ rest) =
        .garbled .integerOverflow left) := by
  induction hrun generalizing budget value with
  | @last b hb =>
    obtain ⟨budget, rfl⟩ := Nat.exists_eq_add_of_lt hlen
    have hgroup := groupOf_lt b
    rw [valueFrom_singleton, List.singleton_append, readWordFrom]
    split
    · exact ⟨fun h => by omega, fun _ => ⟨rest, rfl⟩⟩
    · exact ⟨fun _ => rfl, fun h => by omega⟩
  | @cons b run hb hrun ih =>
    obtain ⟨budget, rfl⟩ := Nat.exists_eq_add_of_lt hlen
    rw [List.cons_append, readWordFrom]
    split
    · next hno =>
      exact ⟨fun h => absurd h (not_fits_of_no_room hlow hhigh hno (List.cons_ne_nil b run)),
        fun _ => ⟨_, rfl⟩⟩
    · rw [hb, valueFrom_cons]
      exact ih (by rw [List.length_cons] at hlen; omega)

theorem readWordFrom_dry (hroom : ∀ k, k + 2 ≤ budget →
      low ≤ value * 128 ^ k ∧ (value + 1) * 128 ^ k ≤ high)
    (hlen : bytes.length < budget) (hall : ∀ b ∈ bytes, isStop b = false) :
    readWordFrom low high word budget value bytes = .dry := by
  induction bytes generalizing budget value with
  | nil =>
    obtain ⟨budget, rfl⟩ := Nat.exists_eq_add_of_lt hlen
    rfl
  | cons b bytes ih =>
    obtain ⟨budget, rfl⟩ := Nat.exists_eq_add_of_lt hlen
    obtain ⟨hb, hall⟩ := List.forall_mem_cons.1 hall
    have hgroup := groupOf_lt b
    have hhere := hroom 0 (by rw [List.length_cons]; omega)
    rw [readWordFrom, if_neg (by omega), hb]
    refine ih (fun k hk => ?_) (by rw [List.length_cons]; omega) hall
    obtain ⟨hlow, hhigh⟩ := hroom (k + 1) (by omega)
    have hp : (0 : Int) ≤ 128 ^ k := Int.pow_nonneg (by decide)
    constructor
    · calc low ≤ value * 128 ^ (k + 1) := hlow
        _ = value * 128 * 128 ^ k := by ring
        _ ≤ (value * 128 + groupOf b) * 128 ^ k := Int.mul_le_mul_of_nonneg_right (by omega) hp
    · calc (value * 128 + groupOf b + 1) * 128 ^ k
          ≤ ((value + 1) * 128) * 128 ^ k := Int.mul_le_mul_of_nonneg_right (by omega) hp
        _ = (value + 1) * 128 ^ (k + 1) := by ring
        _ ≤ high := hhigh

theorem readWordFrom_endless (hlen : budget ≤ bytes.length)
    (hall : ∀ b ∈ bytes.take budget, isStop b = false) :
    ∃ left, readWordFrom low high word budget value bytes = .garbled .integerOverflow left := by
  induction budget generalizing value bytes with
  | zero => exact ⟨bytes, rfl⟩
  | succ budget ih =>
    cases bytes with
    | nil => cases hlen
    | cons b bytes =>
      rw [List.take_succ_cons, List.forall_mem_cons] at hall
      rw [readWordFrom, hall.1]
      split
      · exact ⟨bytes, rfl⟩
      · exact ih (Nat.le_of_succ_le_succ hlen) hall.2

end

theorem readUIntFrom_eq (budget value : Nat) :
    readUIntFrom budget value =
      readWordFrom 0 0x200000000000000 (fun n => .ofNat n.toNat) budget value := by
  funext bytes
  induction budget generalizing value bytes with
  | zero => rfl
  | succ budget ih =>
    cases bytes with
    | nil => rfl
    | cons b bytes =>
      have hnext : (value : Int) * 128 + groupOf b = (value * 128 + groupOf b : Nat) := by
        push_cast
        rfl
      simp only [readUIntFrom, readWordFrom, ih, hnext, Int.toNat_natCast]
      congr 1
      rw [eq_iff_iff]
      omega

theorem readIntFrom_eq (budget : Nat) (value : Int) :
    readIntFrom budget value =
      readWordFrom (-0x100000000000000) 0x100000000000000 .ofInt budget value := by
  funext bytes
  induction budget generalizing value bytes with
  | zero => rfl
  | succ budget ih =>
    cases bytes with
    | nil => rfl
    | cons b bytes => simp only [readIntFrom, readWordFrom, ih]

theorem readUInt_eq_word (bytes : List UInt8) :
    readUInt bytes =
      readWordFrom 0 0x200000000000000 (fun n => .ofNat n.toNat) maxIntegerBytes 0 bytes :=
  congrFun (readUIntFrom_eq maxIntegerBytes 0) bytes

theorem readInt_eq_word (bytes : List UInt8) :
    readInt bytes =
      readWordFrom (-0x100000000000000) 0x100000000000000 .ofInt maxIntegerBytes (startOf bytes)
        bytes := by
  cases bytes with
  | nil => rfl
  | cons b bytes => rw [readInt, readIntFrom_eq, startOf]

/-! ## The law -/

section

variable {α : Type} {read : Read α} {write : α → List UInt8} {size : α → Nat} {number : α → Int}
  {numberOf start : List UInt8 → Int} {low high : Int} {word : Int → α} {bytes run : List UInt8}

/--
The read takes words off: from a start that depends on the first byte it has room for eight groups
without another look, and it comes to what a run stands for.
-/
structure Read.ByWords (read : Read α) (numberOf : List UInt8 → Int) (word : Int → α)
    (low high : Int) (start : List UInt8 → Int) : Prop where
  read_eq : ∀ bytes, read bytes = readWordFrom low high word 10 (start bytes) bytes
  low_le : low ≤ 0
  le_high : 0 ≤ high
  room : ∀ bytes k, k ≤ 8 → low ≤ start bytes * 128 ^ k ∧ (start bytes + 1) * 128 ^ k ≤ high
  start_eq : ∀ {run}, IsRun run → ∀ rest, valueFrom (start (run ++ rest)) run = numberOf run

namespace Read.ByWords

variable (h : read.ByWords numberOf word low high start)
include h

theorem done (hrun : IsRun run) (hlen : run.length ≤ 10)
    (hfits : low * 128 ≤ numberOf run ∧ numberOf run < high * 128) (rest : List UInt8) :
    read (run ++ rest) = .done (word (numberOf run)) rest := by
  rw [← h.start_eq hrun rest] at hfits
  rw [h.read_eq, ← h.start_eq hrun rest]
  exact (readWordFrom_run h.low_le h.le_high hrun hlen rest).1 hfits

theorem overflow (hrun : IsRun run) (hlen : run.length ≤ 10)
    (hfits : ¬(low * 128 ≤ numberOf run ∧ numberOf run < high * 128)) (rest : List UInt8) :
    ∃ left, read (run ++ rest) = .garbled .integerOverflow left := by
  rw [← h.start_eq hrun rest] at hfits
  rw [h.read_eq]
  exact (readWordFrom_run h.low_le h.le_high hrun hlen rest).2 hfits

theorem dry (hlen : bytes.length < 10) (hall : ∀ b ∈ bytes, isStop b = false) :
    read bytes = .dry := by
  rw [h.read_eq]
  exact readWordFrom_dry (fun k hk => h.room bytes k (by omega)) hlen hall

theorem cases (bytes : List UInt8) :
    (∃ run rest, bytes = run ++ rest ∧ IsRun run ∧ run.length ≤ 10 ∧
      (low * 128 ≤ numberOf run ∧ numberOf run < high * 128) ∧
      read bytes = .done (word (numberOf run)) rest) ∨
    ((bytes.length < 10 ∧ ∀ b ∈ bytes, isStop b = false) ∧ read bytes = .dry) ∨
    ∃ left, read bytes = .garbled .integerOverflow left := by
  rcases run_cases 10 bytes with ⟨run, rest, rfl, hrun, hlen⟩ | ⟨hlen, hall⟩ | ⟨hlen, hall⟩
  · by_cases hfits : low * 128 ≤ numberOf run ∧ numberOf run < high * 128
    · exact .inl ⟨run, rest, rfl, hrun, hlen, hfits, h.done hrun hlen hfits rest⟩
    · exact .inr (.inr (h.overflow hrun hlen hfits rest))
  · exact .inr (.inl ⟨⟨hlen, hall⟩, h.dry hlen hall⟩)
  · rw [h.read_eq]
    exact .inr (.inr (readWordFrom_endless hlen hall))

end Read.ByWords

/--
How integers travel: `number` is the integer that a word is, `numberOf` the one that a run stands
for, and the words are the integers from `least` on and below `bound`.
-/
structure Read.OfRuns (read : Read α) (write : α → List UInt8) (size : α → Nat)
    (number : α → Int) (numberOf : List UInt8 → Int) (least bound : Int) : Prop where
  done_iff : ∀ {bytes v rest}, read bytes = .done v rest ↔
    ∃ run, bytes = run ++ rest ∧ IsRun run ∧ run.length ≤ 10 ∧
      (least ≤ numberOf run ∧ numberOf run < bound) ∧ number v = numberOf run
  dry_iff : ∀ {bytes}, read bytes = .dry ↔ bytes.length < 10 ∧ ∀ b ∈ bytes, isStop b = false
  overflow : ∀ {bytes}, (∀ v rest, read bytes ≠ .done v rest) → read bytes ≠ .dry →
    ∃ left, read bytes = .garbled .integerOverflow left
  length_write : ∀ v, (write v).length = size v
  takes_write : ∀ v, read.Takes (write v) v
  shortest : ∀ {run v rest}, read (run ++ rest) = .done v rest → size v ≤ run.length

/-- What is left to show of a read by words is about single words. -/
theorem Read.ByWords.ofRuns (h : read.ByWords numberOf word low high start)
    (hword : ∀ {n}, low * 128 ≤ n ∧ n < high * 128 → ∀ v, number v = n ↔ word n = v)
    (hlength : ∀ v, (write v).length = size v) (htakes : ∀ v, read.Takes (write v) v)
    (hcosts : read.Costs fun v n => (write v).length ≤ n) :
    read.OfRuns write size number numberOf (low * 128) (high * 128) where
  done_iff {bytes v rest} := by
    constructor
    · intro hd
      obtain ⟨run, rest', hbytes, hrun, hlen, hfits, hd'⟩ | ⟨-, hd'⟩ | ⟨left, hd'⟩ := h.cases bytes
      all_goals rw [hd'] at hd; cases hd
      exact ⟨run, hbytes, hrun, hlen, hfits, (hword hfits _).2 rfl⟩
    · rintro ⟨run, rfl, hrun, hlen, hfits, hv⟩
      rw [h.done hrun hlen hfits, (hword hfits v).1 hv]
  dry_iff {bytes} := by
    refine ⟨fun hd => ?_, fun ⟨hlen, hall⟩ => h.dry hlen hall⟩
    obtain ⟨run, rest, -, -, -, -, hd'⟩ | ⟨hshort, -⟩ | ⟨left, hd'⟩ := h.cases bytes
    · rw [hd'] at hd
      cases hd
    · exact hshort
    · rw [hd'] at hd
      cases hd
  overflow {bytes} hdone hdry := by
    obtain ⟨run, rest, -, -, -, -, hd⟩ | ⟨-, hd⟩ | hleft := h.cases bytes
    · exact absurd hd (hdone _ rest)
    · exact absurd hd hdry
    · exact hleft
  length_write := hlength
  takes_write := htakes
  shortest {run v rest} hd := by
    obtain ⟨n, hn, hle⟩ := hcosts.of_done hd
    rw [hlength] at hle
    rw [List.length_append] at hn
    omega

end

theorem pow_128_le {k : Nat} (hk : k ≤ 8) : (128 : Int) ^ k ≤ 0x100000000000000 :=
  pow_le_pow_right₀ (by decide) hk

theorem readUInt_byWords :
    readUInt.ByWords (unsignedOf ·) (fun n => .ofNat n.toNat) 0 0x200000000000000 fun _ => 0 where
  read_eq := readUInt_eq_word
  low_le := Int.le_refl 0
  le_high := by decide
  room _ k hk := by
    have := pow_128_le hk
    omega
  start_eq _ _ := by simp [valueFrom]

theorem readInt_byWords :
    readInt.ByWords signedOf .ofInt (-0x100000000000000) 0x100000000000000 startOf where
  read_eq := readInt_eq_word
  low_le := by decide
  le_high := by decide
  room bytes k hk := by
    have := pow_128_le hk
    have hsign : startOf bytes = 0 ∨ startOf bytes = -1 := by
      unfold startOf
      split
      · exact .inl rfl
      · split
        · exact .inr rfl
        · exact .inl rfl
    rcases hsign with h | h <;> rw [h] <;> omega
  start_eq {run} hrun rest := valueFrom_startOf (by cases hrun <;> simp) rest

/--
Both kinds of integers are read off a run of at most ten bytes that stands for a word, and off
nothing else; what is not such a run is garbled, unless fewer than ten bytes leave it open. A word is
written as the shortest run that stands for it.
-/
theorem integers_ofRuns :
    readUInt.OfRuns writeUInt uintSize (·.toNat) (unsignedOf ·) 0 (2 ^ 64) ∧
      readInt.OfRuns writeInt intSize Int64.toInt signedOf (-2 ^ 63) (2 ^ 63) := by
  constructor
  · refine readUInt_byWords.ofRuns (fun {n} hn v => ?_) length_writeUInt writeUInt_takes
      readUInt_costs
    rw [← toUInt64?_eq_some_iff, toUInt64?, if_pos (by omega), Option.some.injEq]
  · refine readInt_byWords.ofRuns (fun {n} hn v => ?_) length_writeInt writeInt_takes readInt_costs
    rw [← toInt64?_eq_some_iff, toInt64?, if_pos (by omega), Option.some.injEq]

end MarketFeed
