import MarketFeed.PresenceMap
import MarketFeed.Proofs.Wire.RoundTrip
import Mathlib.Data.List.TakeWhile

/-!
# Presence maps on the wire

A map is known by the bits that are set in it. Setting a bit changes no other one, and what a map
is read back as has the same bits, although the zero groups at its end are not sent.
-/

namespace MarketFeed.PresenceMap

/-- The bit in a run of groups, those behind its end being zero. -/
def bitAt (gs : List (BitVec 7)) (bit : Nat) : Bool := ((gs[bit / 7]?).getD 0).getMsbD (bit % 7)

theorem isSet_eq_bitAt (m : PresenceMap) (bit : Nat) : m.isSet bit = bitAt m.groups bit := by
  simp only [isSet, bitAt]
  cases m.groups[bit / 7]? with
  | none => simp
  | some g => rfl

theorem getElem?_append_zeros (gs : List (BitVec 7)) (n i : Nat) :
    ((gs ++ List.replicate n 0)[i]?).getD 0 = (gs[i]?).getD 0 := by
  rw [List.getElem?_append]
  split
  · rfl
  · next h =>
    rw [List.getElem?_replicate, List.getElem?_eq_none (Nat.not_lt.1 h)]
    split <;> rfl

theorem bitAt_append_zeros (gs : List (BitVec 7)) (n bit : Nat) :
    bitAt (gs ++ List.replicate n 0) bit = bitAt gs bit := by
  rw [bitAt, getElem?_append_zeros, bitAt]

/-! ## Setting a bit -/

theorem getMsbD_twoPow {i j : Nat} (hi : i < 7) (hj : j < 7) :
    (BitVec.twoPow 7 (6 - j)).getMsbD i = (i == j) := by
  rw [BitVec.getMsbD_eq_getLsbD, BitVec.getLsbD_twoPow]
  simp only [hi, decide_true, Bool.true_and, beq_eq_decide]
  rw [decide_eq_true (by omega : 6 - j < 7), Bool.true_and]
  exact decide_eq_decide.2 (by omega)

theorem isSet_set? {m m' : PresenceMap} {bit : Nat} (h : m.set? bit = some m') (i : Nat) :
    m'.isSet i = (m.isSet i || i == bit) := by
  unfold set? at h
  split at h
  · obtain rfl := Option.some.inj h
    rw [isSet_eq_bitAt, isSet_eq_bitAt m]
    dsimp only
    rw [← bitAt_append_zeros m.groups (bit / 7 + 1 - m.groups.length), ← padded]
    have hlt : bit / 7 < (m.padded (bit / 7 + 1)).length := by
      simp only [padded, List.length_append, List.length_replicate]
      omega
    simp only [bitAt]
    by_cases hgroup : bit / 7 = i / 7
    · rw [← hgroup, List.getElem?_modify_eq, List.getElem?_eq_getElem hlt]
      simp only [Option.map_eq_map, Option.map_some, Option.getD_some]
      rw [BitVec.getMsbD_or, getMsbD_twoPow (by omega) (by omega)]
      congr 1
      rw [Bool.eq_iff_iff, beq_iff_eq, beq_iff_eq]
      omega
    · rw [List.getElem?_modify_ne _ _ hgroup]
      have : (i == bit) = false := beq_false_of_ne fun heq => hgroup (by rw [heq])
      rw [this, Bool.or_false]
  · cases h

@[simp] theorem isSet_empty (i : Nat) : empty.isSet i = false := rfl

theorem isSet_first (i : Nat) : first.isSet i = (i == 0) := by
  rw [isSet_eq_bitAt]
  simp only [first, bitAt]
  by_cases hgroup : i / 7 = 0
  · rw [hgroup]
    simp only [List.getElem?_cons_zero, Option.getD_some]
    rw [getMsbD_twoPow (j := 0) (by omega) (by omega), Bool.eq_iff_iff, beq_iff_eq, beq_iff_eq]
    omega
  · rw [List.getElem?_eq_none (by simp; omega)]
    rw [beq_false_of_ne fun heq => hgroup (by rw [heq])]
    exact BitVec.getMsbD_zero

/-! ## Sending a map -/

/-- The groups that are sent: a map without any is sent as one of zeros. -/
def sentGroups (m : PresenceMap) : List (BitVec 7) :=
  if m.significant = [] then [0] else m.significant

theorem significant_append (m : PresenceMap) :
    ∃ n, m.groups = m.significant ++ List.replicate n 0 := by
  have hsplit := List.takeWhile_append_dropWhile (p := fun g => g == 0) (l := m.groups.reverse)
  have hzero : m.groups.reverse.takeWhile (fun g => g == 0) =
      List.replicate (m.groups.reverse.takeWhile (fun g => g == 0)).length 0 :=
    List.eq_replicate_of_mem fun g hg => by
      simpa using List.mem_takeWhile_imp hg
  refine ⟨(m.groups.reverse.takeWhile (fun g => g == 0)).length, ?_⟩
  calc m.groups = m.groups.reverse.reverse := (List.reverse_reverse _).symm
    _ = m.significant ++ (m.groups.reverse.takeWhile (fun g => g == 0)).reverse := by
      conv_lhs => rw [← hsplit, List.reverse_append]
      rfl
    _ = _ := by
      conv_lhs => rw [hzero, List.reverse_replicate]

theorem length_significant_le (m : PresenceMap) : m.significant.length ≤ maxGroups := by
  obtain ⟨n, hn⟩ := m.significant_append
  have := congrArg List.length hn
  have := m.size_le
  rw [List.length_append] at *
  omega

/-- The map as its receiver has it. -/
def received (m : PresenceMap) : PresenceMap where
  groups := m.sentGroups
  size_le := by
    have := m.length_significant_le
    unfold sentGroups
    split
    · simp [maxGroups]
    · exact this

theorem isSet_received (m : PresenceMap) (i : Nat) : m.received.isSet i = m.isSet i := by
  obtain ⟨n, hn⟩ := m.significant_append
  rw [isSet_eq_bitAt, isSet_eq_bitAt m, hn, bitAt_append_zeros]
  simp only [received, sentGroups]
  split
  · next h =>
    rw [h]
    exact bitAt_append_zeros [] 1 i
  · rfl

theorem toNat_ofNat_group (g : BitVec 7) : (UInt8.ofNat g.toNat).toNat = g.toNat := by
  have := g.isLt
  rw [UInt8.toNat_ofNat']
  omega

theorem readGroups_takes {budget : Nat} {gs : List (BitVec 7)} (hne : gs ≠ [])
    (hlen : gs.length ≤ budget) :
    (readGroups budget).Takes (closeRun (gs.map fun g => .ofNat g.toNat)) ⟨gs, hlen⟩ := by
  intro rest
  induction gs generalizing budget with
  | nil => exact absurd rfl hne
  | cons g gs ih =>
    obtain ⟨budget, rfl⟩ : ∃ k, budget = k + 1 := ⟨budget - 1, by simp at hlen; omega⟩
    have hsmall : (UInt8.ofNat g.toNat).toNat < 128 := by
      rw [toNat_ofNat_group]
      exact g.isLt
    cases gs with
    | nil =>
      have hgroup : BitVec.ofNat 7 (UInt8.ofNat g.toNat ||| 128).toNat = g := by
        apply BitVec.eq_of_toNat_eq
        have := g.isLt
        rw [BitVec.toNat_ofNat, or_128_toNat hsmall, toNat_ofNat_group]
        omega
      simp only [List.map_cons, List.map_nil, closeRun, List.cons_append, List.nil_append,
        readGroups]
      rw [if_pos (isStop_or_128 hsmall)]
      simp only [hgroup]
    | cons g' gs =>
      have hgroup : BitVec.ofNat 7 (UInt8.ofNat g.toNat).toNat = g := by
        rw [toNat_ofNat_group, BitVec.ofNat_toNat, BitVec.setWidth_eq]
      have := @ih budget (by simp) (by simpa using hlen)
      rw [List.map_cons, closeRun_cons (by simp), List.cons_append]
      simp only [readGroups, isStop_eq_false hsmall, this, hgroup, Bool.false_eq_true, if_false]

theorem write_eq (m : PresenceMap) :
    m.write = closeRun (m.sentGroups.map fun g => .ofNat g.toNat) := by
  simp only [write, sentGroups]
  split
  · next h =>
    rw [h]
    rfl
  · rfl

theorem write_takes (m : PresenceMap) : read.Takes m.write m.received := by
  have hne : m.sentGroups ≠ [] := by
    unfold sentGroups
    split
    · simp
    · assumption
  rw [write_eq]
  exact (readGroups_takes hne m.received.size_le).map fun gs => PresenceMap.mk gs.1 gs.2

end MarketFeed.PresenceMap
