import GibbsNewton.Mixture.Basic

/-!
# Derivatives of the Gibbs energy

The true first and second derivatives of the Gibbs energy of an ideal mixture, with the raising of
the amounts taken into account.  An amount above the floor counts with slope one, an amount below it
with slope zero, and an amount at the floor with slope one half.

For species `k` and `l` of one phase with two or more species, with slopes `d`, raised amounts `s`,
and with `N` and `S` the sums of `a` and `s` over the phase, the derivatives are

    gₖ  = uₖ + ln activityₖ + dₖ (aₖ / sₖ - N / S)
    Hₖₗ = dₗ (δₖₗ / sₖ - 1 / S) + dₖ (δₖₗ (1 / sₖ - aₖ dₖ / sₖ²) - (1 / S - N dₗ / S²))

and all other second derivatives vanish.

## Main definitions

* `Mixture.gradient`, `Mixture.hessian` — the derivatives.
-/

namespace GibbsNewton

variable {α : Type} [Scalar α] {n : Nat}

/-- A gradient with the slopes of the species of one phase added. -/
def Phase.addSlopes (p : Phase n) (a s d g : Vec α n) : Vec α n :=
  if p.isMixed then
    let share := p.total a / p.total s
    Vec.of fun k => if p.species.contains k then g k + d k * (a k / s k - share) else g k
  else g

/-- Second derivatives with the block of one phase put in. -/
def Phase.putHessian (p : Phase n) (a s d : Vec α n) (H : Mat α n n) : Mat α n n :=
  if p.isMixed then
    let whole := p.total s
    let held := p.total a
    Mat.of fun k l =>
      if p.species.contains k && p.species.contains l then
        let activity := (if k = l then 1 / s k else 0) - 1 / whole
        let own := if k = l then 1 / s k - a k * d k / (s k * s k) else 0
        let shared := 1 / whole - held * d l / (whole * whole)
        d l * activity + d k * (own - shared)
      else H k l
  else H

namespace Mixture

/-- The slope of raising an amount to the floor. -/
def slope (x : Mixture α n) (t : α) : α :=
  if Scalar.lt x.floor t then 1 else if t == x.floor then 1 / 2 else 0

/-- The gradient of the Gibbs energy. -/
def gradient (x : Mixture α n) (a : Vec α n) : Vec α n :=
  let s := x.raised a
  let d := a.map x.slope
  x.phases.foldl (fun g p => p.addSlopes a s d g) (x.potentials a)

/-- The second derivatives of the Gibbs energy. -/
def hessian (x : Mixture α n) (a : Vec α n) : Mat α n n :=
  let s := x.raised a
  let d := a.map x.slope
  x.phases.foldl (fun H p => p.putHessian a s d H) (Vec.const n (Vec.const n 0))

end Mixture

end GibbsNewton
