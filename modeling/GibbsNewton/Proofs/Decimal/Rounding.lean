import GibbsNewton.Value.Rounded
import Mathlib.Algebra.Order.Field.Basic
import Mathlib.Algebra.Order.Field.Rat
import Mathlib.Algebra.Order.Ring.Abs
import Mathlib.Data.Rat.Cast.Order
import Mathlib.Tactic.FieldSimp
import Mathlib.Tactic.Linarith
import Mathlib.Tactic.Ring

/-!
# Rounding to the nearest multiple

To round a fraction to some decimal places is to go to the nearest whole multiple of the last of them, and
to the even one of two that are equally near.  There is one such multiple, so nothing else has to be known
of how it is computed: a fraction that is a multiple already stays as it is, and rounding twice is rounding
once.

## Main definitions

* `NearestMultiple` — the multiple of a unit that is nearest to a fraction, ties to even.

## Main results

* `NearestMultiple.unique` — there is only one.
* `Rounds.nearestMultiple_round` — **rounding goes to the nearest multiple.**
* `Rounds.round_round` — **rounding twice is rounding once.**
-/

namespace GibbsNewton

/-- `y` is the whole multiple of `unit` that is nearest to `x`; of two equally near ones, the even one. -/
def NearestMultiple (unit x y : ℚ) : Prop :=
  ∃ m : ℤ, y = m * unit ∧ 2 * |x - y| ≤ unit ∧ (2 * |x - y| = unit → Even m)

namespace NearestMultiple

variable {unit x y z : ℚ}

/-- **There is only one nearest multiple.** -/
theorem unique (hunit : 0 < unit) (hy : NearestMultiple unit x y) (hz : NearestMultiple unit x z) :
    y = z := by
  obtain ⟨k, rfl, hk, hkeven⟩ := hy
  obtain ⟨m, rfl, hm, hmeven⟩ := hz
  by_contra hne
  have hkm : k ≠ m := fun h => hne (by rw [h])
  have hone : 1 ≤ |k - m| := Int.one_le_abs (sub_ne_zero.mpr hkm)
  have hapart : |(k : ℚ) * unit - m * unit| = ((|k - m| : ℤ) : ℚ) * unit := by
    rw [← sub_mul, abs_mul, abs_of_pos hunit, Int.cast_abs, Int.cast_sub]
  have hsum : |(k : ℚ) * unit - m * unit| ≤ |x - k * unit| + |x - m * unit| := by
    rw [abs_sub_comm x (k * unit)]
    exact abs_sub_le _ _ _
  have hfar : 1 * unit ≤ ((|k - m| : ℤ) : ℚ) * unit :=
    mul_le_mul_of_nonneg_right (by exact_mod_cast hone) hunit.le
  -- both are half a unit away, so both are even, and neighbours are not
  have heven : Even |k - m| := even_abs.mpr ((hkeven (by linarith)).sub (hmeven (by linarith)))
  have hnear : ((|k - m| : ℤ) : ℚ) ≤ 1 := le_of_mul_le_mul_right (by linarith) hunit
  have hneighbours : |k - m| = 1 := le_antisymm (by exact_mod_cast hnear) hone
  rw [hneighbours] at heven
  exact absurd heven (by decide)

/-- A multiple is the nearest one to itself. -/
theorem self (hunit : 0 < unit) (hy : NearestMultiple unit x y) : NearestMultiple unit y y := by
  obtain ⟨m, rfl, -⟩ := hy
  refine ⟨m, rfl, ?_, fun h => ?_⟩
  · rw [sub_self, abs_zero, mul_zero]
    exact hunit.le
  · rw [sub_self, abs_zero, mul_zero] at h
    exact absurd h hunit.ne

theorem neg (hy : NearestMultiple unit x y) : NearestMultiple unit (-x) (-y) := by
  obtain ⟨m, rfl, hle, heven⟩ := hy
  have hdistance : |-x - -(m * unit)| = |x - m * unit| := by
    rw [← abs_neg (x - m * unit)]
    congr 1
    ring
  refine ⟨-m, by push_cast; ring, ?_, fun h => ?_⟩
  · rwa [hdistance]
  · rw [hdistance] at h
    exact (heven h).neg

/-- A multiple in another unit. -/
theorem scale (hunit : 0 < unit) (hy : NearestMultiple 1 (x / unit) y) :
    NearestMultiple unit x (y * unit) := by
  obtain ⟨m, rfl, hle, heven⟩ := hy
  have hdistance : |x - m * 1 * unit| = |x / unit - m * 1| * unit := by
    rw [← abs_of_pos hunit, ← abs_mul, abs_of_pos hunit]
    congr 1
    field_simp
  refine ⟨m, by ring, ?_, fun h => heven ?_⟩
  · rw [hdistance, ← mul_assoc]
    exact mul_le_of_le_one_left hunit.le hle
  · rw [hdistance, ← mul_assoc] at h
    exact (mul_eq_right₀ hunit.ne').mp h

end NearestMultiple

namespace Decimal

section

variable {num den : ℕ} (hden : 0 < den)

include hden

/-- A quotient is its whole part and its remainder's share of the divisor. -/
theorem quotient_eq : (num : ℚ) / den = (num / den : ℕ) + (num % den : ℕ) / (den : ℚ) := by
  have hne : (den : ℚ) ≠ 0 := Nat.cast_ne_zero.mpr hden.ne'
  rw [div_eq_iff hne, add_mul, div_mul_cancel₀ _ hne, ← Nat.cast_mul, ← Nat.cast_add, Nat.div_add_mod']

/-- The whole number below is the nearest one if the remainder is at most half the divisor. -/
theorem nearestMultiple_below (hle : 2 * (num % den) ≤ den)
    (htie : 2 * (num % den) = den → Even (num / den)) :
    NearestMultiple 1 ((num : ℚ) / den) (num / den : ℕ) := by
  have hpos : (0 : ℚ) < den := Nat.cast_pos.mpr hden
  have hdistance : 2 * |(num : ℚ) / den - (num / den : ℕ)| = (2 * (num % den) : ℕ) / (den : ℚ) := by
    rw [quotient_eq hden, add_sub_cancel_left, abs_of_nonneg (by positivity), ← mul_div_assoc,
      Nat.cast_mul, Nat.cast_two]
  refine ⟨((num / den : ℕ) : ℤ), by rw [mul_one, Int.cast_natCast], ?_, fun h => ?_⟩
  · rw [hdistance, div_le_one hpos]
    exact Nat.cast_le.mpr hle
  · rw [hdistance, div_eq_one_iff_eq hpos.ne', Nat.cast_inj] at h
    exact (Int.even_coe_nat _).mpr (htie h)

/-- The whole number above is the nearest one if the remainder is at least half the divisor. -/
theorem nearestMultiple_above (hle : den ≤ 2 * (num % den))
    (htie : 2 * (num % den) = den → Even (num / den + 1)) :
    NearestMultiple 1 ((num : ℚ) / den) (num / den + 1 : ℕ) := by
  have hpos : (0 : ℚ) < den := Nat.cast_pos.mpr hden
  have hlt : ((num % den : ℕ) : ℚ) < den := Nat.cast_lt.mpr (Nat.mod_lt num hden)
  have hdistance : 2 * |(num : ℚ) / den - (num / den + 1 : ℕ)| =
      2 - (2 * (num % den) : ℕ) / (den : ℚ) := by
    rw [quotient_eq hden, Nat.cast_succ, add_sub_add_left_eq_sub, abs_sub_comm,
      abs_of_nonneg (sub_nonneg.mpr ((div_le_one hpos).mpr hlt.le)), mul_sub, mul_one, ← mul_div_assoc,
      Nat.cast_mul, Nat.cast_two]
  have hone : (1 : ℚ) ≤ (2 * (num % den) : ℕ) / (den : ℚ) := by
    rw [one_le_div hpos]
    exact Nat.cast_le.mpr hle
  refine ⟨((num / den + 1 : ℕ) : ℤ), by rw [mul_one, Int.cast_natCast], ?_, fun h => ?_⟩
  · rw [hdistance]
    linarith
  · have htwice : ((2 * (num % den) : ℕ) : ℚ) / den = 1 := by linarith
    rw [div_eq_one_iff_eq hpos.ne', Nat.cast_inj] at htwice
    exact (Int.even_coe_nat _).mpr (htie htwice)

/-- The rounded quotient is the nearest whole number. -/
theorem nearestMultiple_roundDiv : NearestMultiple 1 ((num : ℚ) / den) (roundDiv num den) := by
  simp only [roundDiv]
  split
  next h => exact nearestMultiple_below hden h.le fun heq => absurd heq h.ne
  next hbelow =>
    split
    next h => exact nearestMultiple_above hden h.le fun heq => absurd heq h.ne'
    next habove =>
      split
      next h => exact nearestMultiple_below hden (not_lt.mp habove) fun _ => Nat.even_iff.mpr h
      next h =>
        exact nearestMultiple_above hden (not_lt.mp hbelow) fun _ =>
          (Nat.odd_iff.mpr (Nat.mod_two_ne_zero.mp h)).add_one

end

/-- A place after the point is worth the reciprocal of a power of ten. -/
theorem unit_ofNat (k : ℕ) : (10 : ℚ) ^ (-Int.ofNat k) = (tenPow k : ℚ)⁻¹ := by
  rw [Int.ofNat_eq_natCast, zpow_neg, zpow_natCast, ← Nat.cast_ofNat, ← Nat.cast_pow]
  rfl

/-- A place before the point is worth a power of ten. -/
theorem unit_negSucc (k : ℕ) : (10 : ℚ) ^ (-Int.negSucc k) = tenPow (k + 1) := by
  rw [Int.neg_negSucc, zpow_natCast, ← Nat.cast_ofNat, ← Nat.cast_pow]
  rfl

theorem scaled_snd_pos (num : ℕ) {den : ℕ} (hden : 0 < den) (k : ℤ) : 0 < (scaled num den k).2 := by
  cases k with
  | ofNat k => exact hden
  | negSucc k => exact Nat.mul_pos hden (Nat.pow_pos (by decide))

/-- A scaled quotient is the quotient counted in units of a place. -/
theorem quotient_scaled (num den : ℕ) (k : ℤ) :
    ((scaled num den k).1 : ℚ) / (scaled num den k).2 = (num : ℚ) / den / 10 ^ (-k) := by
  cases k with
  | ofNat k =>
    rw [unit_ofNat, div_inv_eq_mul, div_mul_eq_mul_div, ← Nat.cast_mul]
    rfl
  | negSucc k =>
    rw [unit_negSucc, div_div, ← Nat.cast_mul]
    rfl

/-- A quotient rounded to decimal places is the nearest multiple of the last of them, counted in units. -/
theorem nearestMultiple_roundPlaces (num : ℕ) {den : ℕ} (hden : 0 < den) (places : ℤ) :
    NearestMultiple (10 ^ (-places)) ((num : ℚ) / den)
      (roundPlaces places num den * 10 ^ (-places)) := by
  refine NearestMultiple.scale (zpow_pos (by norm_num) _) ?_
  rw [← quotient_scaled]
  exact nearestMultiple_roundDiv (scaled_snd_pos num hden places)

end Decimal

namespace Rounds

/-- The multiple that a fraction is rounded to: that of its absolute value, with its sign. -/
theorem round_eq (places : ℤ) (x : ℚ) :
    round places x =
      (if x.num < 0 then -(Decimal.roundPlaces places x.num.natAbs x.den : ℚ)
        else Decimal.roundPlaces places x.num.natAbs x.den) * 10 ^ (-places) := by
  have hsigned : ∀ units : ℕ, ((if x.num < 0 then -(units : ℤ) else units : ℤ) : ℚ) =
      if x.num < 0 then -(units : ℚ) else units := by
    intro units
    split <;> simp
  cases places with
  | ofNat k =>
    simp only [round, Rat.mkRat_eq_div, hsigned]
    rw [Decimal.unit_ofNat, div_eq_mul_inv]
  | negSucc k =>
    simp only [round, Rat.mkRat_eq_div, Int.cast_mul, hsigned]
    rw [Decimal.unit_negSucc, Nat.cast_one, div_one, Int.cast_natCast]

/-- **Rounding goes to the nearest multiple** of the last place. -/
theorem nearestMultiple_round (places : ℤ) (x : ℚ) :
    NearestMultiple (10 ^ (-places)) x (round places x) := by
  have hnearest := Decimal.nearestMultiple_roundPlaces x.num.natAbs x.den_pos places
  rw [round_eq]
  rw [Nat.cast_natAbs] at hnearest
  -- a negative fraction is rounded as its absolute value is
  split
  next h =>
    have hneg := hnearest.neg
    rwa [abs_of_neg h, Int.cast_neg, neg_div, neg_neg, Rat.num_div_den, ← neg_mul] at hneg
  next h => rwa [abs_of_nonneg (not_lt.mp h), Rat.num_div_den] at hnearest

/-- **Rounding twice is rounding once.** -/
theorem round_round (places : ℤ) (x : ℚ) :
    round places (round places x) = round places x := by
  have hunit : (0 : ℚ) < 10 ^ (-places) := zpow_pos (by norm_num) _
  have hnearest := nearestMultiple_round places x
  exact (nearestMultiple_round places _).unique hunit (hnearest.self hunit)

end Rounds

end GibbsNewton
