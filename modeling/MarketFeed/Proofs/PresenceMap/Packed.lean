import MarketFeed.PresenceMap.Packed
import MarketFeed.Proofs.Wire.Cost
import Mathlib.Data.Nat.Bitwise

/-!
# Presence maps in memory do what presence maps do

A map is kept in one way only, with zeros in all the bytes that are not in use. Every operation leads
from the map as it is kept to the map as it is kept, so that the bytes brought into use when the map
grows are zero, and so is the one that is sent of a map without any.
-/

namespace MarketFeed

theorem closeRun_eq_mapIdx {run : List UInt8} (h : run ≠ []) :
    closeRun run = run.mapIdx fun i b => if i + 1 = run.length then b ||| 128 else b := by
  induction run with
  | nil => exact absurd rfl h
  | cons b run ih =>
    cases run with
    | nil => rfl
    | cons c run =>
      have hfirst : ¬0 + 1 = (b :: c :: run).length := by simp
      rw [closeRun_cons (by simp), ih (by simp)]
      conv_rhs => rw [List.mapIdx_cons, if_neg hfirst]
      simp only [List.length_cons, Nat.add_right_cancel_iff]

namespace PresenceMap

/-! ## One group in a byte -/

def byteOf (g : BitVec 7) : UInt8 := .ofNat g.toNat

theorem toNat_byteOf (g : BitVec 7) : (byteOf g).toNat = g.toNat := toNat_ofNat_group g

theorem toNat_mask (bit : Nat) : (PackedMap.mask bit).toNat = 2 ^ (6 - bit % 7) := by
  have hall : ∀ k < 7, ((1 : UInt8) <<< UInt8.ofNat k).toNat = 2 ^ k := by decide
  exact hall _ (by omega)

theorem byteOf_or_mask (g : BitVec 7) (bit : Nat) :
    byteOf g ||| PackedMap.mask bit = byteOf (g ||| BitVec.twoPow 7 (6 - bit % 7)) := by
  have hlt : 2 ^ (6 - bit % 7) < 2 ^ 7 := Nat.pow_lt_pow_right (by decide) (by omega)
  rw [← UInt8.toNat_inj, UInt8.toNat_or, toNat_byteOf, toNat_byteOf, toNat_mask, BitVec.toNat_or,
    BitVec.toNat_twoPow, Nat.mod_eq_of_lt hlt]

theorem byteOf_and_mask (g : BitVec 7) (bit : Nat) :
    (byteOf g &&& PackedMap.mask bit != 0) = g.getMsbD (bit % 7) := by
  have hbit : g.getMsbD (bit % 7) = g.toNat.testBit (6 - bit % 7) := by
    rw [BitVec.getMsbD_eq_getLsbD, decide_eq_true (by omega), Bool.true_and]
    rfl
  rw [hbit, Bool.eq_iff_iff, bne_iff_ne, ne_eq, ← UInt8.toNat_inj, UInt8.toNat_and, toNat_byteOf,
    toNat_mask, Nat.and_two_pow]
  cases g.toNat.testBit (6 - bit % 7) with
  | true => simp
  | false => simp

theorem and_127_eq_byteOf (b : UInt8) : b &&& 127 = byteOf (BitVec.ofNat 7 b.toNat) := by
  rw [← UInt8.toNat_inj, and_127_toNat, toNat_byteOf, BitVec.toNat_ofNat]

/-! ## A map in memory -/

/-- The map as it is kept: every byte that is not in use is zero. -/
def pack (m : PresenceMap) : PackedMap where
  bytes := .ofFn fun i => byteOf ((m.groups[i.val]?).getD 0)
  len := m.groups.length
  len_le := m.size_le

theorem getElem_pack (m : PresenceMap) {i : Nat} (h : i < maxGroups) :
    m.pack.bytes[i] = byteOf ((m.groups[i]?).getD 0) := Vector.getElem_ofFn h

/-- A map is kept in one way only. -/
theorem eq_pack {p : PackedMap} {m : PresenceMap} (hlen : p.len = m.groups.length)
    (hbytes : ∀ i (h : i < maxGroups), p.bytes[i] = byteOf ((m.groups[i]?).getD 0)) :
    p = m.pack := by
  obtain ⟨bytes, len, hle⟩ := p
  have : bytes = m.pack.bytes := Vector.ext fun i hi => by rw [getElem_pack]; exact hbytes i hi
  subst this hlen
  rfl

theorem isSet_pack (m : PresenceMap) (bit : Nat) : m.pack.isSet bit = m.isSet bit := by
  rw [PackedMap.isSet, isSet_eq_bitAt, bitAt]
  split
  · dsimp only
    rw [getElem_pack, byteOf_and_mask]
  · next h =>
    rw [List.getElem?_eq_none (Nat.not_lt.1 h)]
    exact BitVec.getMsbD_zero.symm

theorem new_eq_pack : ({} : PackedMap) = empty.pack := by decide

theorem clear_pack (p : PackedMap) : p.clear = empty.pack := new_eq_pack

theorem set_pack (m : PresenceMap) (bit : Nat) :
    m.pack.set bit = (((m.set? bit).getD m).pack, (m.set? bit).isSome) := by
  unfold PackedMap.set set?
  split
  · next hroom =>
    refine Prod.ext (eq_pack ?_ fun i hi => ?_) rfl
    · simp only [Option.getD_some, List.length_modify, padded, List.length_append,
        List.length_replicate]
      by_cases hle : m.pack.len ≤ bit / 7
      · rw [if_pos hle]
        exact (Nat.add_sub_of_le (Nat.le_succ_of_le hle)).symm
      · rw [if_neg hle]
        exact (Nat.add_eq_left.2 (Nat.sub_eq_zero_of_le (Nat.not_le.1 hle))).symm
    · simp only [Option.getD_some, Vector.getElem_set, getElem_pack, byteOf_or_mask]
      split
      · next heq =>
        subst heq
        have hlt : bit / 7 < (m.padded (bit / 7 + 1)).length := by
          simp only [padded, List.length_append, List.length_replicate]
          omega
        rw [List.getElem?_modify_eq, ← getElem?_append_zeros m.groups (bit / 7 + 1 - m.groups.length),
          ← padded, List.getElem?_eq_getElem hlt]
        rfl
      · next hne =>
        rw [List.getElem?_modify_ne _ _ hne, padded, getElem?_append_zeros]
  · rfl

/-! ## Sending it -/

/-- Bytes in front of the map are groups, if they are those of the map and zeros behind them. -/
theorem take_pack (m : PresenceMap) {gs : List (BitVec 7)} (hlen : gs.length ≤ maxGroups)
    (hgs : ∀ i (h : i < gs.length), gs[i] = (m.groups[i]?).getD 0) :
    m.pack.bytes.toList.take gs.length = gs.map byteOf := by
  refine List.ext_getElem (by simp [hlen]) fun i hi hi' => ?_
  rw [List.length_map] at hi'
  rw [List.getElem_take, Vector.getElem_toList, getElem_pack, List.getElem_map, hgs]

theorem sentGroups_ne_nil (m : PresenceMap) : m.sentGroups ≠ [] := by
  unfold sentGroups
  split
  · simp
  · assumption

theorem length_sentGroups (m : PresenceMap) :
    m.sentGroups.length = max 1 m.significant.length := by
  unfold sentGroups
  split
  · next h =>
    rw [h]
    rfl
  · next h =>
    have := List.length_pos_iff.2 h
    omega

theorem getElem_sentGroups (m : PresenceMap) {i : Nat} (h : i < m.sentGroups.length) :
    m.sentGroups[i] = (m.groups[i]?).getD 0 := by
  obtain ⟨n, hn⟩ := m.significant_append
  have hi : m.sentGroups[i] = (m.sentGroups[i]?).getD 0 := by
    rw [List.getElem?_eq_getElem h]
    rfl
  rw [hi, hn, getElem?_append_zeros, sentGroups]
  split
  · next hnil =>
    rw [hnil]
    exact getElem?_append_zeros [] 1 i
  · rfl

/-- Behind the last group that is not zero there are only zeros. -/
theorem significant_cases (m : PresenceMap) :
    m.significant = [] ∨ ∃ gs g, m.significant = gs ++ [g] ∧ g ≠ 0 := by
  rcases List.eq_nil_or_concat m.significant with h | ⟨gs, g, h⟩
  · exact .inl h
  · rw [List.concat_eq_append] at h
    exact .inr ⟨gs, g, h, ne_zero_of_significant h⟩

theorem byteOf_bne_zero (g : BitVec 7) : (byteOf g != 0) = (g != 0) := by
  rw [Bool.eq_iff_iff, bne_iff_ne, bne_iff_ne, ne_eq, ne_eq, ← UInt8.toNat_inj, toNat_byteOf,
    ← BitVec.toNat_inj]
  rfl

theorem encodedLen_pack (m : PresenceMap) : m.pack.encodedLen = m.sentGroups.length := by
  have hbytes : m.pack.bytes.toList.take m.pack.len = m.groups.map byteOf :=
    m.take_pack m.size_le fun i h => by rw [List.getElem?_eq_getElem h]; rfl
  have hlen : m.pack.len = m.groups.length := rfl
  obtain ⟨n, hn⟩ := m.significant_append
  have hzeros : ((List.replicate n (0 : BitVec 7)).map byteOf).reverse.findIdx? (· != 0) = none := by
    simp [byteOf]
  rw [PackedMap.encodedLen, hbytes, hlen, hn, length_sentGroups, List.map_append,
    List.reverse_append, List.findIdx?_append, hzeros, List.length_append, List.length_reverse,
    List.length_map, List.length_replicate]
  rcases m.significant_cases with hnil | ⟨gs, g, hgs, hg⟩
  · rw [hnil]
    rfl
  · have : (byteOf g != 0) = true := by rw [byteOf_bne_zero, bne_iff_ne]; exact hg
    rw [hgs, List.map_append, List.reverse_append]
    simp [List.findIdx?_cons, this]

theorem encode_pack (m : PresenceMap) : m.pack.encode = m.write := by
  have hne : m.sentGroups.map byteOf ≠ [] := by simpa using m.sentGroups_ne_nil
  have hbytes := m.take_pack m.received.size_le fun i h => m.getElem_sentGroups h
  rw [PackedMap.encode, encodedLen_pack, write_eq]
  refine Eq.trans ?_ (closeRun_eq_mapIdx hne).symm
  rw [List.length_map]
  exact congrArg _ hbytes

/-! ## Reading it -/

/-- The map with more groups behind those it has. -/
def followedBy (m : PresenceMap) {budget : Nat} (h : m.groups.length + budget = maxGroups)
    (gs : { gs : List (BitVec 7) // gs.length ≤ budget }) : PresenceMap where
  groups := m.groups ++ gs.1
  size_le := by
    rw [List.length_append, ← h]
    exact Nat.add_le_add_left gs.2 _

theorem getElem?_concat_getD (gs : List (BitVec 7)) (g : BitVec 7) (i : Nat) :
    ((gs ++ [g])[i]?).getD 0 = if gs.length = i then g else (gs[i]?).getD 0 := by
  rw [List.getElem?_append]
  split
  · next h => rw [if_neg (Nat.ne_of_gt h)]
  · next h =>
    rw [List.getElem?_eq_none (Nat.not_lt.1 h)]
    split
    · next heq =>
      subst heq
      rw [Nat.sub_self]
      rfl
    · next hne =>
      rw [List.getElem?_eq_none (by rw [List.length_singleton]; omega)]

theorem decodeOnto_pack (m : PresenceMap) {budget : Nat}
    (h : m.groups.length + budget = maxGroups) :
    m.pack.decodeOnto = readGroups budget >>= fun gs => pure (m.followedBy h gs).pack := by
  funext bytes
  induction budget generalizing m bytes with
  | zero =>
    have hfull : ¬m.pack.len < maxGroups := Nat.not_lt.2 (Nat.le_of_eq h.symm)
    cases bytes with
    | nil => exact if_neg hfull
    | cons b bytes => exact dif_neg hfull
  | succ budget ih =>
    have hfree : m.pack.len < maxGroups := by
      rw [← h]
      exact Nat.lt_add_of_pos_right (Nat.succ_pos budget)
    cases bytes with
    | nil => exact if_pos hfree
    | cons b bytes =>
      let next : PresenceMap :=
        { groups := m.groups ++ [BitVec.ofNat 7 b.toNat]
          size_le := by rw [List.length_append]; exact hfree }
      have hnext : PackedMap.mk (m.pack.bytes.set m.pack.len (b &&& 127)) (m.pack.len + 1) hfree =
          next.pack := by
        refine eq_pack (by simp [next, pack]) fun i hi => ?_
        rw [Vector.getElem_set, and_127_eq_byteOf, getElem_pack, getElem?_concat_getD, apply_ite byteOf]
        rfl
      have hstep : m.pack.decodeOnto (b :: bytes) =
          if isStop b then .done next.pack bytes else next.pack.decodeOnto bytes := by
        rw [← hnext]
        exact dif_pos hfree
      have hroom : next.groups.length + budget = maxGroups := by
        rw [← h, List.length_append, List.length_singleton]
        omega
      rw [hstep, ih next hroom bytes]
      simp only [Bind.bind, Read.bind, readGroups]
      split
      · rfl
      · cases readGroups budget bytes with
        | dry => rfl
        | garbled e rest => rfl
        | done gs rest =>
          refine congrArg (Outcome.done · rest) (congrArg pack ?_)
          simp only [followedBy, next, List.append_assoc, List.singleton_append]

theorem decode_pack : PackedMap.decode = read >>= fun m => pure m.pack := by
  have hroom : empty.groups.length + maxGroups = maxGroups := rfl
  rw [PackedMap.decode, new_eq_pack, decodeOnto_pack empty hroom]
  simp only [read, bind_assoc, pure_bind]
  rfl

end PresenceMap

/-! ## Maps that are reached -/

namespace PackedMap

/-- The maps that there are: made or read, and changed since. -/
inductive Reached : PackedMap → Prop
  | new : Reached {}
  | decode {bytes rest : List UInt8} {p : PackedMap} (h : decode bytes = .done p rest) : Reached p
  | set {p : PackedMap} (h : Reached p) (bit : Nat) : Reached (p.set bit).1
  | clear {p : PackedMap} (h : Reached p) : Reached p.clear

theorem decode_eq_done {bytes rest : List UInt8} {p : PackedMap}
    (h : decode bytes = .done p rest) :
    ∃ m, p = m.pack ∧ PresenceMap.read bytes = .done m rest := by
  rw [PresenceMap.decode_pack] at h
  simp only [Bind.bind, Read.bind] at h
  split at h
  · next m rest' hread =>
    obtain ⟨rfl, rfl⟩ := Outcome.done.inj h
    exact ⟨m, rfl, hread⟩
  · cases h
  · cases h

/-- Bytes that are not in use never come to hold anything. -/
theorem Reached.exists_pack {p : PackedMap} (h : p.Reached) : ∃ m : PresenceMap, p = m.pack := by
  induction h with
  | new => exact ⟨.empty, PresenceMap.new_eq_pack⟩
  | decode h =>
    obtain ⟨m, hm, -⟩ := decode_eq_done h
    exact ⟨m, hm⟩
  | set h bit ih =>
    obtain ⟨m, rfl⟩ := ih
    exact ⟨(m.set? bit).getD m, by rw [PresenceMap.set_pack]⟩
  | clear h ih => exact ⟨.empty, PresenceMap.clear_pack _⟩

end PackedMap

end MarketFeed
