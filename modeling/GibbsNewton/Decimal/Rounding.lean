/-!
# Rounding quotients

A nonnegative quotient `num / den` rounded to a whole number, ties to the even neighbour, and the
power of ten just below such a quotient.  These are the two exact steps behind every decimal text
of a number.

## Main definitions

* `roundDiv` — the nearest whole number.
* `scaled` — a quotient times a power of ten.
* `decade` — the exponent of the largest power of ten that does not exceed a quotient.
-/

namespace GibbsNewton.Decimal

/-- The whole number nearest to `num / den`; of two equally near ones, the even one. -/
def roundDiv (num den : Nat) : Nat :=
  let q := num / den
  let r := num % den
  if 2 * r < den then q
  else if den < 2 * r then q + 1
  else if q % 2 = 0 then q else q + 1

/-- A power of ten. -/
def tenPow (k : Nat) : Nat := Nat.pow 10 k

/-- Numerator and denominator of `num / den · 10ᵏ`. -/
def scaled (num den : Nat) (k : Int) : Nat × Nat :=
  match k with
  | .ofNat k => (num * tenPow k, den)
  | .negSucc k => (num, den * tenPow (k + 1))

/-- Whether `10ᵏ` is at most `num / den`. -/
def powerLe (k : Int) (num den : Nat) : Bool :=
  let (n, d) := scaled num den (-k)
  decide (d ≤ n)

/-- Raises an exponent while the next power of ten is still at most `num / den`, a bounded number
of times. -/
def raise (num den : Nat) : Nat → Int → Int
  | 0, k => k
  | steps + 1, k => if powerLe (k + 1) num den then raise num den steps (k + 1) else k

/-- The exponent of the largest power of ten that is at most `num / den`, for a positive quotient.
The lengths of the two numbers in binary place it to within a few units, from below. -/
def decade (num den : Nat) : Int :=
  let bits : Int := (num.log2 : Int) - (den.log2 : Int)
  raise num den 8 ((bits - 1) * 30103 / 100000 - 2)

/-- A nonnegative quotient rounded to `places` places after the point; a negative number of places
rounds to tens, hundreds and so on.  The answer counts units of the last place. -/
def roundPlaces (places : Int) (num den : Nat) : Nat :=
  let (n, d) := scaled num den places
  roundDiv n d

end GibbsNewton.Decimal
