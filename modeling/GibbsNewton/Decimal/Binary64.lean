import GibbsNewton.Decimal.Rounding

/-!
# Doubles as exact quotients

A finite double is a sign, a whole mantissa and a power of two, hence an exact quotient of whole
numbers.  Decimal texts and decimal rounding work on that quotient.

## Main definitions

* `Binary64`, `Binary64.ofFloat` — a double taken apart.
* `Binary64.quotient` — numerator and denominator of its magnitude.
* `Decimal.roundFloat`, `Decimal.ofInt` — a double rounded to decimal places, the nearest double.
-/

namespace GibbsNewton

/-- A double taken apart; a finite one is `± mantissa · 2^exponent`. -/
inductive Binary64
  /-- A finite number. -/
  | finite (negative : Bool) (mantissa : Nat) (exponent : Int)
  /-- An infinity. -/
  | infinite (negative : Bool)
  /-- Not a number. -/
  | undefined
  deriving Repr

namespace Binary64

/-- The leading bit of the mantissa of a normal number, which is not stored: two to the `52`. -/
def hidden : Nat := 0x10000000000000

/-- Takes a double apart. -/
def ofFloat (x : Float) : Binary64 :=
  let bits := x.toBits.toNat
  let negative := bits >>> 63 == 1
  let field : Nat := (bits >>> 52) % 0x800
  let fraction := bits % hidden
  if field = 2047 then if fraction = 0 then .infinite negative else .undefined
  else if field = 0 then .finite negative fraction (-1074)
  else .finite negative (hidden + fraction) ((field : Int) - 1075)

/-- Numerator and denominator of `mantissa · 2^exponent`. -/
def quotient (mantissa : Nat) (exponent : Int) : Nat × Nat :=
  match exponent with
  | .ofNat e => (mantissa * Nat.pow 2 e, 1)
  | .negSucc e => (mantissa, Nat.pow 2 (e + 1))

end Binary64

namespace Decimal

/-- The double nearest to `units` units of the last of `places` decimal places. -/
def ofUnits (negative : Bool) (units : Nat) (places : Int) : Float :=
  let magnitude := Float.ofScientific units (decide (0 < places)) places.natAbs
  if negative then -magnitude else magnitude

/-- A double rounded to a number of decimal places, ties to even, from its exact value; the sign of
a zero and the values that are not finite are kept. -/
def roundFloat (places : Int) (x : Float) : Float :=
  match Binary64.ofFloat x with
  | .finite negative mantissa exponent =>
    let (n, d) := Binary64.quotient mantissa exponent
    ofUnits negative (roundPlaces places n d) places
  | _ => x

/-- The double nearest to a whole number. -/
def ofInt (n : Int) : Float := ofUnits (decide (n < 0)) n.natAbs 0

end Decimal

end GibbsNewton
