import MarketFeed.Proofs.PresenceMap.Packed
import MarketFeed.Proofs.Wire.Runs
import Mathlib.Data.Nat.Find
import Mathlib.Order.Bounds.Basic

/-!
# Presence maps as runs

A map is sent as the shortest run that has all its bits, so at most as long as the one it was read
from. It is shown of the map as it is kept in memory, after whatever has been done to it.
-/

namespace MarketFeed

/-! ## Runs of groups -/

theorem isRun_closeRun {run : List UInt8} (h : run ≠ []) (hsmall : ∀ b ∈ run, b.toNat < 128) :
    IsRun (closeRun run) := by
  induction run with
  | nil => exact absurd rfl h
  | cons b run ih =>
    obtain ⟨hb, hrun⟩ := List.forall_mem_cons.1 hsmall
    cases run with
    | nil => exact .last (isStop_or_128 hb)
    | cons c run =>
      rw [closeRun_cons (by simp)]
      exact .cons (isStop_eq_false hb) (ih (by simp) hrun)

theorem map_groupOf_closeRun {run : List UInt8} (h : run ≠ [])
    (hsmall : ∀ b ∈ run, b.toNat < 128) : (closeRun run).map groupOf = run.map (·.toNat) := by
  induction run with
  | nil => exact absurd rfl h
  | cons b run ih =>
    obtain ⟨hb, hrun⟩ := List.forall_mem_cons.1 hsmall
    cases run with
    | nil => exact congrArg ([·]) (groupOf_or_128 hb)
    | cons c run =>
      rw [closeRun_cons (by simp), List.map_cons, ih (by simp) hrun, groupOf_of_lt hb]
      rfl

namespace PresenceMap

/-! ## The bytes that are sent -/

theorem byteOf_lt (g : BitVec 7) : (byteOf g).toNat < 128 := by
  rw [toNat_byteOf]
  exact g.isLt

theorem map_byteOf_lt (gs : List (BitVec 7)) : ∀ b ∈ gs.map byteOf, b.toNat < 128 := by
  intro b hb
  obtain ⟨g, -, rfl⟩ := List.mem_map.1 hb
  exact byteOf_lt g

theorem isRun_write (m : PresenceMap) : IsRun m.write := by
  rw [write_eq]
  exact isRun_closeRun (by simpa using m.sentGroups_ne_nil) (map_byteOf_lt _)

theorem map_groupOf_write (m : PresenceMap) :
    m.write.map groupOf = m.sentGroups.map (·.toNat) := by
  rw [write_eq]
  refine (map_groupOf_closeRun (by simpa using m.sentGroups_ne_nil) (map_byteOf_lt _)).trans ?_
  rw [List.map_map]
  exact List.map_congr_left fun g _ => toNat_byteOf g

theorem lt_significant_of_isSet {m : PresenceMap} {i : Nat} (h : m.isSet i = true) :
    i / 7 < m.significant.length := by
  obtain ⟨n, hn⟩ := m.significant_append
  rw [isSet_eq_bitAt, hn, bitAt_append_zeros, bitAt] at h
  by_contra hlt
  rw [List.getElem?_eq_none (Nat.not_lt.1 hlt)] at h
  exact Bool.false_ne_true (BitVec.getMsbD_zero.symm.trans h)

theorem length_write_of_isGreatest {m : PresenceMap} {bit : Nat}
    (h : IsGreatest { i | m.isSet i = true } bit) : m.write.length = max 1 (bit / 7 + 1) := by
  have hlt : bit / 7 < m.significant.length := lt_significant_of_isSet h.1
  rw [length_write]
  rcases m.significant_cases with hnil | ⟨gs, g, hgs, -⟩
  · rw [hnil] at hlt
    cases hlt
  · obtain ⟨i, hi, hset⟩ := exists_isSet_significant hgs
    have hle : i ≤ bit := h.2 hset
    rw [hgs, List.length_append, List.length_singleton] at hlt ⊢
    omega

theorem length_write_of_none {m : PresenceMap} (h : ∀ i, m.isSet i = false) :
    m.write.length = 1 := by
  rw [length_write]
  rcases m.significant_cases with hnil | ⟨gs, g, hgs, -⟩
  · rw [hnil]
    rfl
  · obtain ⟨i, -, hset⟩ := exists_isSet_significant hgs
    rw [h i] at hset
    cases hset

theorem exists_isGreatest {m : PresenceMap} {i : Nat} (h : m.isSet i = true) :
    ∃ bit, IsGreatest { i | m.isSet i = true } bit := by
  have hbound {j : Nat} (hj : m.isSet j = true) : j ≤ maxBits := by
    have := lt_length_of_isSet hj
    have := m.size_le
    simp only [maxBits]
    omega
  exact ⟨Nat.findGreatest (fun j => m.isSet j = true) maxBits, Nat.findGreatest_spec (hbound h) h,
    fun _ hj => Nat.le_findGreatest (hbound hj) hj⟩

theorem isSome_set?_iff (m : PresenceMap) (bit : Nat) : (m.set? bit).isSome = true ↔ bit < 56 := by
  unfold set? maxGroups
  split
  · next h => exact iff_of_true rfl (by omega)
  · next h => exact iff_of_false (by decide) (by omega)

/-! ## The runs that are read -/

theorem run_of_readGroups {budget : Nat} {bytes rest : List UInt8}
    {gs : { gs : List (BitVec 7) // gs.length ≤ budget }}
    (h : readGroups budget bytes = .done gs rest) :
    ∃ run, bytes = run ++ rest ∧ IsRun run ∧ run.map groupOf = gs.1.map (·.toNat) := by
  induction budget generalizing bytes with
  | zero => cases h
  | succ budget ih =>
    cases bytes with
    | nil => cases h
    | cons b bytes =>
      have hgroup : groupOf b = (BitVec.ofNat 7 b.toNat).toNat := (BitVec.toNat_ofNat b.toNat 7).symm
      simp only [readGroups] at h
      split at h
      · next hb =>
        obtain ⟨rfl, rfl⟩ := Outcome.done.inj h
        exact ⟨[b], rfl, .last hb, congrArg ([·]) hgroup⟩
      · next hb =>
        split at h
        · next hread =>
          obtain ⟨rfl, rfl⟩ := Outcome.done.inj h
          obtain ⟨run, rfl, hrun, hmap⟩ := ih hread
          refine ⟨b :: run, rfl, .cons (Bool.eq_false_iff.2 hb) hrun, ?_⟩
          rw [List.map_cons, hmap, hgroup]
          rfl
        · cases h
        · cases h

theorem groups_eq_sentGroups {m : PresenceMap} (h : m.groups ≠ []) :
    ∃ zeros, m.groups = m.sentGroups ++ List.replicate zeros 0 := by
  obtain ⟨n, hn⟩ := m.significant_append
  unfold sentGroups
  split
  · next hnil =>
    rw [hnil, List.nil_append] at hn
    cases n with
    | zero => exact absurd hn h
    | succ n => exact ⟨n, by rw [hn]; rfl⟩
  · exact ⟨n, hn⟩

/-- A map that takes more than a byte does not end in zeros. -/
theorem length_sentGroups_or (m : PresenceMap) :
    m.sentGroups.length = 1 ∨ (m.sentGroups.map (·.toNat)).getLast? ≠ some 0 := by
  rcases m.significant_cases with hnil | ⟨gs, g, hgs, hg⟩
  · rw [length_sentGroups, hnil]
    exact .inl rfl
  · refine .inr fun hlast => hg ?_
    rw [sentGroups, hgs, if_neg (by simp), List.map_append, List.map_singleton,
      List.getLast?_concat, Option.some.injEq] at hlast
    exact BitVec.eq_of_toNat_eq hlast

end PresenceMap

/-! ## The law -/

namespace PackedMap

/--
How a map changes, what it is sent as, what that is read back as, and which map of the wire it is.
-/
structure RoundTrips (p : PackedMap) : Prop where
  set_iff : ∀ bit, (p.set bit).2 = true ↔ bit < 56
  isSet_set : ∀ bit, bit < 56 → ∀ i, (p.set bit).1.isSet i = (p.isSet i || i == bit)
  set_refused : ∀ bit, 56 ≤ bit → (p.set bit).1 = p
  isRun_encode : IsRun p.encode
  length_encode :
    (∃ bit, IsGreatest { i | p.isSet i = true } bit ∧ p.encode.length = max 1 (bit / 7 + 1)) ∨
      ((∀ i, p.isSet i = false) ∧ p.encode.length = 1)
  takes_encode : ∃ q, Read.Takes decode p.encode q ∧ ∀ i, q.isSet i = p.isSet i
  exists_map : ∃ m : PresenceMap, p = m.pack ∧ p.encode = m.write ∧ ∀ i, p.isSet i = m.isSet i

theorem roundTrips_pack (m : PresenceMap) : m.pack.RoundTrips where
  set_iff bit := by
    rw [PresenceMap.set_pack]
    exact m.isSome_set?_iff bit
  isSet_set bit h i := by
    obtain ⟨m', hm'⟩ := Option.isSome_iff_exists.1 ((m.isSome_set?_iff bit).2 h)
    rw [PresenceMap.set_pack, hm', PresenceMap.isSet_pack, PresenceMap.isSet_pack]
    exact PresenceMap.isSet_set? hm' i
  set_refused bit h := by
    have hnone : m.set? bit = none :=
      Option.not_isSome_iff_eq_none.1 fun hsome => absurd ((m.isSome_set?_iff bit).1 hsome) (by omega)
    rw [PresenceMap.set_pack, hnone]
    rfl
  isRun_encode := by
    rw [PresenceMap.encode_pack]
    exact m.isRun_write
  length_encode := by
    simp only [PresenceMap.encode_pack, PresenceMap.isSet_pack]
    by_cases h : ∃ i, m.isSet i = true
    · obtain ⟨i, hi⟩ := h
      obtain ⟨bit, hbit⟩ := PresenceMap.exists_isGreatest hi
      exact .inl ⟨bit, hbit, PresenceMap.length_write_of_isGreatest hbit⟩
    · have hnone (i : Nat) : m.isSet i = false := Bool.eq_false_iff.2 fun hi => h ⟨i, hi⟩
      exact .inr ⟨hnone, PresenceMap.length_write_of_none hnone⟩
  takes_encode := by
    refine ⟨m.received.pack, ?_, fun i => ?_⟩
    · rw [PresenceMap.decode_pack, PresenceMap.encode_pack]
      exact m.write_takes.map PresenceMap.pack
    · rw [PresenceMap.isSet_pack, PresenceMap.isSet_pack, PresenceMap.isSet_received]
  exists_map := ⟨m, rfl, m.encode_pack, m.isSet_pack⟩

/--
What was read and what is sent of it have the same groups, but for the zeros that stand behind them
in the one, and the other does not end in zeros unless it is a single byte.
-/
structure Trims (run sent : List UInt8) : Prop where
  isRun : IsRun run
  isRun_sent : IsRun sent
  groups : ∃ zeros, run.map groupOf = sent.map groupOf ++ List.replicate zeros 0
  trimmed : sent.length = 1 ∨ (sent.map groupOf).getLast? ≠ some 0

theorem trims_of_decode {bytes rest : List UInt8} {p : PackedMap}
    (h : decode bytes = .done p rest) : ∃ run, bytes = run ++ rest ∧ Trims run p.encode := by
  obtain ⟨m, rfl, hread⟩ := decode_eq_done h
  obtain ⟨run, rfl, hrun, hgroups⟩ : ∃ run, bytes = run ++ rest ∧ IsRun run ∧
      run.map groupOf = m.groups.map (·.toNat) := by
    simp only [PresenceMap.read, Bind.bind, Read.bind] at hread
    split at hread
    · next gs rest' hgs =>
      obtain ⟨rfl, rfl⟩ := Outcome.done.inj hread
      exact PresenceMap.run_of_readGroups hgs
    · cases hread
    · cases hread
  have hne : m.groups ≠ [] := fun hnil => by
    rw [hnil, List.map_nil, List.map_eq_nil_iff] at hgroups
    subst hgroups
    cases hrun
  obtain ⟨zeros, hzeros⟩ := PresenceMap.groups_eq_sentGroups hne
  rw [PresenceMap.encode_pack]
  refine ⟨run, rfl, hrun, m.isRun_write, ⟨zeros, ?_⟩, ?_⟩
  · rw [hgroups, hzeros, List.map_append, List.map_replicate, PresenceMap.map_groupOf_write]
    rfl
  · rw [PresenceMap.map_groupOf_write, PresenceMap.length_write, ← PresenceMap.length_sentGroups]
    exact m.length_sentGroups_or

/--
Whatever has been done to a map, it takes the bits that it has room for and is sent in as few bytes as
its bits leave, which are read back as the same bits; and what is read is sent again without the
zeros at its end.
-/
theorem reached_roundTrips :
    (∀ p : PackedMap, p.Reached → p.RoundTrips) ∧
      ∀ (bytes : List UInt8) (p : PackedMap) (rest : List UInt8), decode bytes = .done p rest →
        ∃ run, bytes = run ++ rest ∧ Trims run p.encode := by
  refine ⟨fun p h => ?_, fun bytes p rest h => trims_of_decode h⟩
  obtain ⟨m, rfl⟩ := h.exists_pack
  exact roundTrips_pack m

/-- A map that was read with zeros at its end, and the same with a bit set in them. -/
theorem reached_roundTrips_zeros :
    ∃ p, decode [0x40, 0x00, 0x80, 0x55] = .done p [0x55] ∧ (p.set 9).1.RoundTrips ∧
      ∃ run, [0x40, 0x00, 0x80, 0x55] = run ++ [0x55] ∧ Trims run p.encode := by
  have h : decode [0x40, 0x00, 0x80, 0x55] =
      .done { bytes := #v[0x40, 0, 0, 0, 0, 0, 0, 0], len := 3 } [0x55] := by decide
  exact ⟨_, h, reached_roundTrips.1 _ (.set (.decode h) 9), reached_roundTrips.2 _ _ _ h⟩

end PackedMap

end MarketFeed
