import GibbsNewton.Mixture.Basic

/-!
# Standard properties from polynomials

The heat capacity, enthalpy, entropy and Gibbs energy of one mole of a species at a temperature, from
the coefficients of a polynomial fit.  Nine coefficients `a` stand for

    Cp / R   = a₀/T² + a₁/T + a₂ + a₃ T + a₄ T² + a₅ T³ + a₆ T⁴
    H / (RT) = -a₀/T² + a₁ ln T / T + a₂ + a₃ T/2 + a₄ T²/3 + a₅ T³/4 + a₆ T⁴/5 + a₇/T
    S / R    = -a₀/(2T²) - a₁/T + a₂ ln T + a₃ T + a₄ T²/2 + a₅ T³/3 + a₆ T⁴/4 + a₈

and any other number, usually seven, for

    Cp / R   = a₀ + a₁ T + a₂ T² + a₃ T³ + a₄ T⁴
    H / (RT) = a₀ + a₁ T/2 + a₂ T²/3 + a₃ T³/4 + a₄ T⁴/5 + a₅/T
    S / R    = a₀ ln T + a₁ T + a₂ T²/2 + a₃ T³/3 + a₄ T⁴/4 + a₆

where a coefficient that is not there reads as the last one.

## Main definitions

* `Fit` — a fit, given by its coefficients.
* `Fit.heatCapacity`, `Fit.enthalpy`, `Fit.entropy`, `Fit.gibbs` — the properties.
* `Fit.potential` — the standard potential, in units of `R T`.
* `chooseRange` — the fit that holds at a temperature.
-/

namespace GibbsNewton

/-- The gas constant, in joules per mole and kelvin. -/
def gasConstant {α : Type} [Scalar α] : α := Scalar.decimal 8314462618 9

/-- A fit, given by its coefficients: at least one. -/
structure Fit (α : Type) where
  /-- The first coefficient. -/
  first : α
  /-- The others. -/
  rest : List α

namespace Fit

variable {α : Type}

/-- The fit of a list of coefficients, if there are any. -/
def ofList? : List α → Option (Fit α)
  | [] => none
  | first :: rest => some { first, rest }

/-- All coefficients. -/
def toList (c : Fit α) : List α := c.first :: c.rest

/-- A coefficient; past the end, the last one. -/
def get (c : Fit α) (i : Nat) : α := c.toList.getD (min i c.rest.length) c.first

/-- Whether there are nine coefficients. -/
def isNine (c : Fit α) : Bool := c.rest.length == 8

variable [Scalar α]

/-- The second power. -/
def square (t : α) : α := t * t

/-- The third power. -/
def cube (t : α) : α := t * (t * t)

/-- The fourth power. -/
def fourth (t : α) : α := square (square t)

/-- Heat capacity over the gas constant. -/
def reducedHeatCapacity (c : Fit α) (t : α) : α :=
  if c.isNine then
    let r := 1 / t
    c.get 0 * square r + c.get 1 * r + c.get 2 + c.get 3 * t + c.get 4 * square t +
      c.get 5 * cube t + c.get 6 * fourth t
  else
    c.get 0 + c.get 1 * t + c.get 2 * square t + c.get 3 * cube t + c.get 4 * fourth t

/-- Enthalpy over the gas constant and the temperature. -/
def reducedEnthalpy (c : Fit α) (t : α) : α :=
  if c.isNine then
    let r := 1 / t
    let leading := -(c.get 0) * square r
    let series := c.get 2 + c.get 3 * t / 2 + c.get 4 * square t / 3 + c.get 5 * cube t / 4 +
      c.get 6 * fourth t / 5
    leading + c.get 1 * r * Scalar.log t + series + c.get 7 * r
  else
    c.get 0 + c.get 1 * t / 2 + c.get 2 * square t / 3 + c.get 3 * cube t / 4 +
      c.get 4 * fourth t / 5 + c.get 5 / t

/-- Entropy over the gas constant. -/
def reducedEntropy (c : Fit α) (t : α) : α :=
  if c.isNine then
    let r := 1 / t
    let leading := -(c.get 0) * square r / 2
    let series := c.get 3 * t + c.get 4 * square t / 2 + c.get 5 * cube t / 3 +
      c.get 6 * fourth t / 4
    leading - c.get 1 * r + c.get 2 * Scalar.log t + series + c.get 8
  else
    c.get 0 * Scalar.log t + c.get 1 * t + c.get 2 * square t / 2 + c.get 3 * cube t / 3 +
      c.get 4 * fourth t / 4 + c.get 6

/-- The heat capacity at constant pressure. -/
def heatCapacity (c : Fit α) (t : α) : α := gasConstant * c.reducedHeatCapacity t

/-- The enthalpy. -/
def enthalpy (c : Fit α) (t : α) : α := gasConstant * t * c.reducedEnthalpy t

/-- The entropy at the standard pressure. -/
def entropy (c : Fit α) (t : α) : α := gasConstant * c.reducedEntropy t

/-- The Gibbs energy at a pressure. -/
def gibbs (c : Fit α) (t pressure : α) : α :=
  c.enthalpy t - t * c.entropy t + gasConstant * t * Scalar.log (pressure / standardPressure)

/-- The standard potential in units of `R T`. -/
def potential (c : Fit α) (t : α) : α := c.gibbs t standardPressure / (gasConstant * t)

end Fit

/-- What holds at a temperature, of something given below and above a midpoint. -/
def chooseRange {α β : Type} [Scalar α] (t midpoint : α) (low high : β) : β :=
  if Scalar.lt midpoint t then high else low

end GibbsNewton
