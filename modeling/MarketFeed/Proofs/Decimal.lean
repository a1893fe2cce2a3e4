import MarketFeed.Decimal.Digits
import Mathlib.Algebra.Order.Field.Basic
import Mathlib.Data.Rat.Cast.CharZero
import Mathlib.Tactic.NormNum

/-!
# Moving a decimal to another exponent

A decimal stands for a number, `mantissa * 10 ^ exponent`. Moving it to another exponent leaves the
number alone, and comes to a mantissa just when some word at that exponent stands for the number:
`rescale_eq_some_iff` with `sameAt_iff`. The same is true of the move digit by digit, so the two are
the same function (`rescaleByDigits_eq`).
-/

namespace MarketFeed

namespace Decimal

variable {d : Decimal} {target v : Int64}

/-- The number that the decimal stands for. -/
def toRat (d : Decimal) : ℚ := d.mantissa.toInt * (10 : ℚ) ^ d.exponent.toInt

/-- The mantissa `v` at the exponent `target` stands for the same number as the decimal. -/
def SameAt (d : Decimal) (target : Int64) (v : Int) : Prop :=
  v * 10 ^ placesDown target d.exponent = d.mantissa.toInt * 10 ^ placesDown d.exponent target

/-- Places of a mantissa are worth as much in the exponent. -/
theorem mul_pow_eq_iff (a b : Int) (k : Nat) (x : Int) :
    a * 10 ^ k = b ↔ (a : ℚ) * 10 ^ (x + k) = b * 10 ^ x := by
  have h10 : (10 : ℚ) ≠ 0 := by norm_num
  rw [zpow_add₀ h10, zpow_natCast, mul_left_comm, mul_comm (b : ℚ),
    mul_right_inj' (zpow_ne_zero x h10)]
  norm_cast

theorem sameAt_iff {v : Int} : d.SameAt target v ↔ (v : ℚ) * 10 ^ target.toInt = d.toRat := by
  simp only [SameAt, toRat, placesDown]
  generalize d.exponent.toInt = x
  generalize target.toInt = y
  rcases Int.le_total y x with hle | hle
  · obtain ⟨k, rfl⟩ := Int.le.dest hle
    have hup : (y - (y + k)).toNat = 0 := by omega
    have hdown : (y + k - y).toNat = k := by omega
    rw [hup, hdown, Int.pow_zero, Int.mul_one, eq_comm, mul_pow_eq_iff _ _ k y, eq_comm]
  · obtain ⟨k, rfl⟩ := Int.le.dest hle
    have hup : (x + k - x).toNat = k := by omega
    have hdown : (x - (x + k)).toNat = 0 := by omega
    rw [hup, hdown, Int.pow_zero, Int.mul_one, mul_pow_eq_iff _ _ k x]

/-! ## Digit by digit -/

theorem toInt64?_eq_none_iff {n : Int} :
    toInt64? n = none ↔ n < -0x8000000000000000 ∨ 0x8000000000000000 ≤ n := by
  unfold toInt64?
  split <;> simp <;> omega

/-- What does not fit does not fit any better with more digits. -/
theorem toInt_ne_of_toInt64?_eq_none {n : Int} (h : toInt64? n = none) (k : Nat) (v : Int64) :
    v.toInt ≠ n * 10 ^ k := by
  have hp : (0 : Int) < 10 ^ k := pow_pos (by decide) k
  have := v.le_toInt
  have := v.toInt_lt
  intro heq
  rcases toInt64?_eq_none_iff.1 h with h | h
  · have : n * 10 ^ k ≤ n * 1 := Int.mul_le_mul_of_nonpos_left (by omega) (by omega)
    omega
  · have : n * 1 ≤ n * 10 ^ k := Int.mul_le_mul_of_nonneg_left (by omega) (by omega)
    omega

theorem moveDown_eq_some_iff {mantissa exponent : Int64} {p : Int64 × Int64} :
    moveDown target mantissa exponent = some p ↔
      p.1.toInt = mantissa.toInt * 10 ^ placesDown exponent target ∧
        p.2 = if target < exponent then target else exponent := by
  fun_induction moveDown target mantissa exponent with
  | case1 mantissa exponent h next hnext ih =>
    have hend : (if target < exponent - 1 then target else exponent - 1) = target := by
      split
      · rfl
      · next hle =>
        rw [Int64.lt_iff_toInt_lt, toInt_sub_one h] at hle
        rw [← Int64.toInt_inj, toInt_sub_one h]
        rw [Int64.lt_iff_toInt_lt] at h
        omega
    rw [ih, toInt64?_eq_some_iff.1 hnext, hend, placesDown_sub_one h, if_pos h, Int.pow_succ',
      Int.mul_assoc]
  | case2 mantissa exponent h hnone =>
    rw [placesDown_sub_one h, Int.pow_succ', ← Int.mul_assoc]
    exact iff_of_false nofun fun hp => toInt_ne_of_toInt64?_eq_none hnone _ _ hp.1
  | case3 mantissa exponent h =>
    rw [placesDown_of_not_lt h, if_neg h, Int.pow_zero, Int.mul_one, Int64.toInt_inj,
      Option.some.injEq, Prod.ext_iff, eq_comm, @eq_comm _ exponent]

theorem mod_ten_eq_zero_iff (x : Int64) : x % 10 = 0 ↔ (10 : Int) ∣ x.toInt := by
  rw [← Int64.toInt_inj, Int64.toInt_mod, Int64.toInt_zero, ← Int.dvd_iff_tmod_eq_zero]
  rfl

theorem toInt_div_ten {x : Int64} (h : x % 10 = 0) : (x / 10).toInt * 10 = x.toInt := by
  rw [Int64.toInt_div_of_ne_right _ _ (by decide)]
  exact Int.tdiv_mul_cancel ((mod_ten_eq_zero_iff x).1 h)

theorem moveUp_eq_some_iff {mantissa exponent : Int64} :
    moveUp target mantissa exponent = some v ↔
      v.toInt * 10 ^ placesDown target exponent = mantissa.toInt := by
  fun_induction moveUp target mantissa exponent with
  | case1 mantissa exponent h hdvd ih =>
    rw [ih, placesDown_add_one h, Int.pow_succ, ← Int.mul_assoc, ← toInt_div_ten hdvd,
      Int.mul_eq_mul_right_iff (by decide)]
  | case2 mantissa exponent h hdvd =>
    refine iff_of_false nofun fun hv => hdvd ?_
    rw [mod_ten_eq_zero_iff, ← hv, placesDown_add_one h, Int.pow_succ, ← Int.mul_assoc]
    exact Int.dvd_mul_left ..
  | case3 mantissa exponent h =>
    rw [placesDown_of_not_lt h, Int.pow_zero, Int.mul_one, Int64.toInt_inj, Option.some.injEq,
      eq_comm]

theorem rescaleByDigits_eq_some_iff : d.rescaleByDigits target = some v ↔ d.SameAt target v.toInt := by
  simp only [rescaleByDigits, Option.bind_eq_bind, Option.bind_eq_some_iff, moveDown_eq_some_iff,
    moveUp_eq_some_iff, SameAt]
  by_cases h : target < d.exponent
  · have hup : placesDown target d.exponent = 0 := placesDown_of_not_lt (Int64.lt_asymm h)
    have hend : placesDown target target = 0 := placesDown_of_not_lt Int64.lt_irrefl
    rw [hup, Int.pow_zero, Int.mul_one, if_pos h]
    constructor
    · rintro ⟨⟨m, e⟩, ⟨hm, rfl⟩, hv⟩
      rwa [hend, Int.pow_zero, Int.mul_one, hm] at hv
    · intro hv
      exact ⟨(v, target), ⟨hv, rfl⟩, by rw [hend, Int.pow_zero, Int.mul_one]⟩
  · rw [placesDown_of_not_lt h, Int.pow_zero, Int.mul_one, if_neg h]
    constructor
    · rintro ⟨⟨m, e⟩, ⟨hm, rfl⟩, hv⟩
      rw [hv, hm]
    · intro hv
      exact ⟨(d.mantissa, d.exponent), ⟨rfl, rfl⟩, hv⟩

/-! ## In one step -/

/-- No word but zero can be moved by twenty places. -/
theorem toInt_ne_mul_pow {x y : Int64} (hy : y.toInt ≠ 0) {k : Nat} (hk : 20 ≤ k) :
    x.toInt ≠ y.toInt * 10 ^ k := by
  have hx : x.toInt.natAbs < 10 ^ 20 := by
    have := x.le_toInt
    have := x.toInt_lt
    omega
  have hle : 10 ^ 20 ≤ y.toInt.natAbs * 10 ^ k := calc
    10 ^ 20 ≤ 10 ^ k := Nat.pow_le_pow_right (by decide) hk
    _ ≤ y.toInt.natAbs * 10 ^ k := Nat.le_mul_of_pos_left _ (Int.natAbs_pos.2 hy)
  intro heq
  rw [heq, Int.natAbs_mul, Int.natAbs_pow] at hx
  exact absurd hx (Nat.not_lt.2 hle)

theorem rescale_eq_some_iff : d.rescale target = some v ↔ d.SameAt target v.toInt := by
  simp only [rescale, SameAt, placesDown, Nat.pow_eq, Int.natCast_pow, Nat.cast_ofNat]
  split
  · next hzero =>
    rw [hzero, Int.zero_mul, Int.mul_eq_zero, or_iff_left (pow_ne_zero _ (by decide)),
      Option.some.injEq, ← Int64.toInt_inj, Int64.toInt_zero, eq_comm]
  · next hzero =>
    generalize d.exponent.toInt = x
    generalize target.toInt = y
    rcases Int.le_total y x with hle | hle
    · have hup : (y - x).toNat = 0 := by omega
      have hdown : (x - y).toNat = (x - y).natAbs := by omega
      rw [hup, hdown, Int.pow_zero, Int.mul_one]
      split
      · next hfar => exact iff_of_false (Option.some_ne_none v).symm (toInt_ne_mul_pow hzero hfar)
      · rw [if_pos (by omega), toInt64?_eq_some_iff]
    · have hup : (y - x).toNat = (x - y).natAbs := by omega
      have hdown : (x - y).toNat = 0 := by omega
      rw [hup, hdown, Int.pow_zero, Int.mul_one]
      split
      · next hfar =>
        refine iff_of_false (Option.some_ne_none v).symm fun hv => ?_
        have hne : v.toInt ≠ 0 := fun hz => hzero (by rw [← hv, hz, Int.zero_mul])
        exact toInt_ne_mul_pow hne hfar hv.symm
      split
      · next hsame =>
        obtain rfl : x = y := by omega
        rw [toInt64?_eq_some_iff, Int.sub_self, Int.natAbs_zero, Int.pow_zero, Int.mul_one,
          Int.mul_one]
      have hpos : (10 : Int) ^ (x - y).natAbs ≠ 0 := pow_ne_zero _ (by decide)
      split
      · next hdvd =>
        rw [toInt64?_eq_some_iff, eq_comm,
          Int.ediv_eq_iff_eq_mul_left hpos (Int.dvd_of_emod_eq_zero hdvd), eq_comm]
      · next hdvd =>
        refine iff_of_false (Option.some_ne_none v).symm fun hv => hdvd ?_
        rw [← hv]
        exact Int.mul_emod_left ..

/-- The digits can be moved one at a time, with the same outcome. -/
theorem rescaleByDigits_eq (d : Decimal) (target : Int64) :
    d.rescaleByDigits target = d.rescale target :=
  Option.ext fun _ => rescaleByDigits_eq_some_iff.trans rescale_eq_some_iff.symm

end Decimal

end MarketFeed
