/-!
# Checked conversions to 64-bit words

Sums and products are formed over `Int`, where nothing wraps, and brought back to a word here.
-/

namespace MarketFeed

/-- The signed word equal to `n`, if there is one. -/
def toInt64? (n : Int) : Option Int64 :=
  if -0x8000000000000000 ≤ n ∧ n < 0x8000000000000000 then some (.ofInt n) else none

/-- The unsigned word equal to `n`, if there is one. -/
def toUInt64? (n : Int) : Option UInt64 :=
  if 0 ≤ n ∧ n < 0x10000000000000000 then some (.ofNat n.toNat) else none

/-- The sum, or the largest word if the sum does not fit. -/
def saturatingAdd (a b : UInt64) : UInt64 := .ofNat (min (a.toNat + b.toNat) 0xFFFFFFFFFFFFFFFF)

theorem toInt64?_eq_some_iff {n : Int} {v : Int64} : toInt64? n = some v ↔ v.toInt = n := by
  unfold toInt64?
  have := v.toInt_lt; have := v.le_toInt
  split
  · rename_i h
    rw [Option.some.injEq]
    constructor
    · rintro rfl; exact Int64.toInt_ofInt_of_le h.1 h.2
    · rintro rfl; simp
  · simp; omega

theorem toUInt64?_eq_some_iff {n : Int} {v : UInt64} :
    toUInt64? n = some v ↔ (v.toNat : Int) = n := by
  unfold toUInt64?
  have := v.toNat_lt
  split
  · rw [Option.some.injEq]
    constructor
    · rintro rfl; simp; omega
    · rintro rfl; simp
  · simp; omega

end MarketFeed
