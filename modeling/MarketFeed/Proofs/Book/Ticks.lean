import MarketFeed.Book.Basic
import MarketFeed.Proofs.Decimal

/-!
# Prices in ticks

A price becomes a level of a book only as the number that it is. The mantissa that is kept stands, at
the exponent of the tick, for just that number, and is a multiple of the tick; and whatever price has
such a mantissa is taken: `priceInTicks_eq_ok_iff`.
-/

namespace MarketFeed

namespace Book

variable {b : Book} {price : Decimal} {ticks : Int64}

theorem toRat_toPrice (b : Book) (ticks : Int64) :
    (b.toPrice ticks).toRat = ticks.toInt * (10 : ℚ) ^ b.tick.exponent.toInt := rfl

theorem rescale_tick_iff :
    price.rescale b.tick.exponent = some ticks ↔ (b.toPrice ticks).toRat = price.toRat :=
  Decimal.rescale_eq_some_iff.trans Decimal.sameAt_iff

theorem priceInTicks_eq_ok_iff (htick : 0 < b.tick.mantissa) :
    b.priceInTicks price = .ok ticks ↔
      (b.toPrice ticks).toRat = price.toRat ∧ b.tick.mantissa.toInt ∣ ticks.toInt := by
  rw [← rescale_tick_iff, Int.dvd_iff_tmod_eq_zero]
  unfold priceInTicks
  rw [Int64.lt_iff_toInt_lt, Int64.toInt_zero] at htick
  have hdivides : ¬(b.tick.mantissa = 0 ∨ b.tick.mantissa = -1) := by
    rintro (h | h) <;> rw [h] at htick <;> exact absurd htick (by decide)
  cases price.rescale b.tick.exponent with
  | none => simp
  | some mantissa =>
    dsimp only
    rw [if_neg fun h => hdivides (h.imp_right And.right)]
    split
    · next hdvd =>
      rw [Except.ok.injEq, Option.some.injEq]
      exact ⟨fun h => ⟨h, h ▸ hdvd⟩, And.left⟩
    · next hdvd =>
      refine iff_of_false nofun ?_
      rintro ⟨h, hdvd'⟩
      exact hdvd (Option.some.inj h ▸ hdvd')

/--
Digit by digit or in one step, rescaling gives the one mantissa that stands for the same number at
the exponent asked for, and none if no word does. So a book takes a price just when it is a multiple
of the tick that fits, and shows it again as the same number.
-/
theorem rescaled_exact :
    (∀ (d : Decimal) (target : Int64),
      d.rescaleByDigits target = d.rescale target ∧
      (∀ v : Int64, d.rescale target = some v ↔
        (v.toInt : ℚ) * 10 ^ target.toInt = d.mantissa.toInt * 10 ^ d.exponent.toInt) ∧
      ((∀ v : Int64,
          (v.toInt : ℚ) * 10 ^ target.toInt ≠ d.mantissa.toInt * 10 ^ d.exponent.toInt) →
        d.rescale target = none)) ∧
    ∀ b : Book, 0 < b.tick.mantissa → ∀ (price : Decimal) (ticks : Int64),
      (b.priceInTicks price = .ok ticks ↔
        price.toRat = ticks.toInt * 10 ^ b.tick.exponent.toInt ∧
          b.tick.mantissa.toInt ∣ ticks.toInt) ∧
      (b.priceInTicks price = .ok ticks → (b.toPrice ticks).toRat = price.toRat) := by
  have hrescale (d : Decimal) (target v : Int64) : d.rescale target = some v ↔
      (v.toInt : ℚ) * 10 ^ target.toInt = d.mantissa.toInt * 10 ^ d.exponent.toInt :=
    Decimal.rescale_eq_some_iff.trans Decimal.sameAt_iff
  refine ⟨fun d target => ⟨d.rescaleByDigits_eq target, hrescale d target, fun hnone => ?_⟩,
    fun b htick price ticks => ⟨?_, fun h => ((priceInTicks_eq_ok_iff htick).1 h).1⟩⟩
  · exact Option.eq_none_iff_forall_ne_some.2 fun v hv => hnone v ((hrescale d target v).1 hv)
  · rw [priceInTicks_eq_ok_iff htick, toRat_toPrice, eq_comm]

/-- With a tick of five cents, a price just in range, one just out of it, and one off the tick. -/
theorem rescaled_exact_fiveCents :
    let b := create "A" 5 ⟨5, -2⟩ 10 none
    0 < b.tick.mantissa ∧
      b.priceInTicks ⟨-92233720368547758, 0⟩ = .ok (-9223372036854775800) ∧
      (b.toPrice (-9223372036854775800)).toRat = Decimal.toRat ⟨-92233720368547758, 0⟩ ∧
      (∀ ticks : Int64, Decimal.toRat ⟨92233720368547759, 0⟩ ≠ ticks.toInt * 10 ^ (-2 : Int) ∨
        ¬(5 : Int) ∣ ticks.toInt) ∧
      ∀ ticks : Int64, Decimal.toRat ⟨12346, -2⟩ ≠ ticks.toInt * 10 ^ (-2 : Int) ∨
        ¬(5 : Int) ∣ ticks.toInt := by
  intro b
  have htick : 0 < b.tick.mantissa := by decide
  have htaken : b.priceInTicks ⟨-92233720368547758, 0⟩ = .ok (-9223372036854775800) := by
    decide +kernel
  have hfar : b.priceInTicks ⟨92233720368547759, 0⟩ = .error (.offTick ⟨92233720368547759, 0⟩) := by
    decide +kernel
  have hoff : b.priceInTicks ⟨12346, -2⟩ = .error (.offTick ⟨12346, -2⟩) := by decide +kernel
  have hticks := rescaled_exact.2 b htick
  refine ⟨htick, htaken, (hticks _ _).2 htaken, fun ticks => ?_, fun ticks => ?_⟩
  · rw [← not_and_or]
    exact fun h => by simpa [hfar] using ((hticks _ ticks).1.2 h)
  · rw [← not_and_or]
    exact fun h => by simpa [hoff] using ((hticks _ ticks).1.2 h)

end Book

end MarketFeed
