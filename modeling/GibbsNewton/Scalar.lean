/-!
# Scalars

The arithmetic that a solver run is written over.  Every numerical definition of the library is
polymorphic in a `Scalar`: at `Float` it is the program that runs, and at a field with one extra
element for results that are not finite it is the mathematics that the program approximates.

Comparisons answer a Boolean, and a value that is not a number answers `false` to each of them,
also against itself.  Which operand a maximum or a minimum then prefers is a decision of its own:
`maximum` and `minimum` let such a value through from either side, while `firstMax` and `firstMin`
keep the first operand unless the second one strictly beats it.

## Main definitions

* `Scalar` — the operations; `Float` is an instance.
* `Scalar.maximum`, `Scalar.minimum` — extrema that pass on a value that is not a number.
* `Scalar.firstMax`, `Scalar.firstMin` — extrema that replace the first operand only when beaten.
-/

namespace GibbsNewton

/-- The operations on numbers that the solver needs. -/
class Scalar (α : Type) extends Add α, Sub α, Mul α, Div α, Neg α, BEq α where
  /-- The scalar of a natural number. -/
  ofNat : Nat → α
  /-- `decimal m e` is the scalar of `m · 10⁻ᵉ`. -/
  decimal : Nat → Nat → α
  /-- Strict order; `false` as soon as one side is not a number. -/
  lt : α → α → Bool
  /-- Whether the value is an ordinary number, neither infinite nor undefined. -/
  isFinite : α → Bool
  /-- The natural logarithm. -/
  log : α → α
  /-- The square root. -/
  sqrt : α → α

instance instOfNatScalar {α : Type} [Scalar α] (n : Nat) : OfNat α n := ⟨Scalar.ofNat n⟩

namespace Scalar

variable {α : Type} [Scalar α]

/-- The absolute value. -/
def abs (x : α) : α := if lt x 0 then -x else x

/-- The larger of two values; a value that is not a number wins.  Two zeros are added, which gives
the positive one if either is. -/
def maximum (a b : α) : α :=
  if !(a == a) then a
  else if !(b == b) then b
  else if lt a b then b
  else if a == 0 && b == 0 then a + b
  else a

/-- The smaller of two values; a value that is not a number wins. -/
def minimum (a b : α) : α :=
  if !(a == a) then a else if !(b == b) then b else if lt b a then b else a

/-- The first value unless the second one is strictly larger. -/
def firstMax (a b : α) : α := if lt a b then b else a

/-- The first value unless the second one is strictly smaller. -/
def firstMin (a b : α) : α := if lt b a then b else a

end Scalar

instance instScalarFloat : Scalar Float where
  ofNat := Float.ofNat
  decimal m e := Float.ofScientific m true e
  lt a b := decide (a < b)
  isFinite := Float.isFinite
  log := Float.log
  sqrt := Float.sqrt

end GibbsNewton
