import GibbsNewton.Proofs.Equilibrium.Session
import GibbsNewton.Proofs.Mixture.Evaluable
import GibbsNewton.Proofs.Mixture.Differentiable

/-!
# The derivatives that are optimised with

What an equilibrium calculation hands to the optimiser as derivatives of the Gibbs energy are its
derivatives, at all amounts above the floor.  The gradient is the chemical potential by every choice of
second derivatives.  The true second derivatives and those without the floor are the same there, in
full and on the diagonal, and they are what any exact differentiation of the energy, and of the
gradient so found, must give.

## Main definitions

* `Equilibrium.MixtureProblem.TrueDerivatives` — the derivatives of a problem are true at some amounts.

## Main results

* `Equilibrium.MixtureProblem.trueDerivatives_of_above` — **above the floor they are.**
-/

namespace GibbsNewton

open Matrix Topology

variable {n m : ℕ}

namespace Equilibrium

/-- The derivatives that a problem is optimised with are, at the amounts `a`, the true ones of the Gibbs
energy, and it makes no difference whether the floor is left out of them. -/
structure MixtureProblem.TrueDerivatives (P : MixtureProblem n m) (a : Fin n → ℝ) : Prop where
  /-- The Gibbs energy is differentiable; its gradient is made of the chemical potentials. -/
  energy : HasGradient P.mixture.gibbs (P.mixture.chemicalPotential a) a
  /-- The chemical potentials are differentiable; -/
  potentials : HasJacobian P.mixture.chemicalPotential (P.mixture.secondDerivatives a) a
  /-- and their Jacobian is computed in closed form. -/
  curvature_eq :
    P.mixture.exact.curvature (Vec.ofReal a) = Mat.ofReal (P.mixture.secondDerivatives a)
  /-- The gradient delivered is made of the chemical potentials. -/
  gradient_eq : ∀ scheme : Scheme, (P.exact.optimum scheme).gradient (Vec.ofReal a) =
    P.mixture.exact.potentials (Vec.ofReal a)
  /-- The two full schemes deliver the same. -/
  full_eq : ∀ g, (P.exact.optimum .exact).hessian (Vec.ofReal a) g =
    (P.exact.optimum .approximation).hessian (Vec.ofReal a) g
  /-- The two diagonal schemes deliver the same. -/
  diagonal_eq : ∀ g, (P.exact.optimum .exactDiagonal).hessian (Vec.ofReal a) g =
    (P.exact.optimum .approximationDiagonal).hessian (Vec.ofReal a) g
  /-- Whoever finds a gradient `G` of the energy around `a`, and the Jacobian `H` of that, finds what is
  delivered. -/
  differentiated : ∀ (G : (Fin n → ℝ) → Fin n → ℝ) (H : Matrix (Fin n) (Fin n) ℝ),
    (∀ᶠ v in 𝓝 a, HasGradient P.mixture.gibbs (G v) v) → HasJacobian G H a →
      (∀ scheme : Scheme, (P.exact.optimum scheme).gradient (Vec.ofReal a) = Vec.ofReal (G a)) ∧
        ∀ g, (P.exact.optimum .exact).hessian (Vec.ofReal a) g = .dense (Mat.ofReal H) ∧
          (P.exact.optimum .exactDiagonal).hessian (Vec.ofReal a) g = .diagonal (Vec.ofReal H.diag)

/-- **Above the floor the derivatives are the true ones**, whatever the phases.  The energy and the
potentials that they are the derivatives of can be computed at all amounts. -/
theorem MixtureProblem.trueDerivatives_of_above {P : MixtureProblem n m}
    (hphases : ∀ q ∈ P.mixture.phases, q.species ≠ []) (hP : 0 < P.mixture.pressure)
    (hfloor : 0 < P.mixture.floor) :
    (∀ v : Fin n → ℝ, P.mixture.exact.energy? (Vec.ofReal v) = some (P.mixture.gibbs v : Exact) ∧
      P.mixture.exact.potentials? (Vec.ofReal v) =
        some (Vec.ofReal (P.mixture.chemicalPotential v))) ∧
    ∀ a : Fin n → ℝ, (∀ i, P.mixture.floor < a i) → P.TrueDerivatives a := by
  have hseen := Mixture.seen_pos_of_floor_pos hfloor
  constructor
  · intro v
    have hevaluable : P.mixture.exact.isEvaluable = true := MixtureProblem.isEvaluable_exact hphases
    rw [Mixture.energy?_eq, Mixture.potentials?_eq, hevaluable]
    exact ⟨congrArg some (Mixture.energy_ofReal (hseen v) hP),
      congrArg some (Mixture.potentials_ofReal (hseen v) hP)⟩
  · intro a hafloor
    have ha : P.mixture.Above a := fun i => ⟨hfloor.trans (hafloor i), hafloor i⟩
    have hgradient : ∀ scheme : Scheme, (P.exact.optimum scheme).gradient (Vec.ofReal a) =
        Vec.ofReal (P.mixture.chemicalPotential a) := by
      intro scheme
      rw [← Mixture.slopedPotential_of_above ha]
      exact Mixture.gradient_ofReal (hseen a) hP
    have hcurvature := Mixture.curvature_ofReal (hseen a)
    have hhessian : P.mixture.exact.hessian (Vec.ofReal a) =
        Mat.ofReal (P.mixture.secondDerivatives a) := by
      rw [← Mixture.slopedDerivatives_of_above ha]
      exact Mixture.hessian_ofReal (hseen a)
    have hsame : P.mixture.exact.hessian (Vec.ofReal a) = P.mixture.exact.curvature (Vec.ofReal a) :=
      hhessian.trans hcurvature.symm
    refine {
      energy := Mixture.hasGradient_gibbs ha
      potentials := Mixture.hasJacobian_chemicalPotential ha
      curvature_eq := hcurvature
      gradient_eq := fun scheme => (hgradient scheme).trans (Mixture.potentials_ofReal (hseen a) hP).symm
      full_eq := fun _ => congrArg Hessian.dense hsame
      diagonal_eq := fun _ => congrArg (fun H => Hessian.diagonal (Mat.diag H)) hsame
      differentiated := fun G H hG hH => ?_ }
    -- around `a` there is one gradient, so `G` is the potential and `H` its Jacobian
    have hpotential : ∀ᶠ v in 𝓝 a, G v = P.mixture.chemicalPotential v := by
      filter_upwards [hG, ha.eventually] with v hv habove
      exact hv.unique (Mixture.hasGradient_gibbs habove)
    obtain rfl : H = P.mixture.secondDerivatives a :=
      hH.unique (Mixture.hasJacobian_chemicalPotential ha) hpotential
    refine ⟨fun scheme => by rw [hgradient scheme, hpotential.self_of_nhds], fun g => ⟨?_, ?_⟩⟩
    · exact congrArg Hessian.dense hhessian
    · rw [← Mat.diag_ofReal, ← hhessian]
      rfl

/-- Among the isomers in equal amounts. -/
theorem MixtureProblem.trueDerivatives_isomers :
    (∀ q ∈ isomers.mixture.phases, q.species ≠ []) ∧ 0 < isomers.mixture.pressure ∧
      0 < isomers.mixture.floor ∧ (∀ i : Fin 2, isomers.mixture.floor < (fun _ => 1) i) ∧
      isomers.mixture.exact.energy? (Vec.ofReal fun _ => 1) =
        some (isomers.mixture.gibbs fun _ => 1) ∧
      HasGradient isomers.mixture.gibbs (fun _ => -Real.log 2) (fun _ => 1) ∧
      isomers.TrueDerivatives fun _ => 1 := by
  have hphases : ∀ q ∈ isomers.mixture.phases, q.species ≠ [] := by simp [isomers]
  have hP : 0 < isomers.mixture.pressure := by norm_num [isomers]
  have hfloor : 0 < isomers.mixture.floor := by norm_num [isomers]
  have habove : ∀ i : Fin 2, isomers.mixture.floor < (fun _ => (1 : ℝ)) i := by norm_num [isomers]
  obtain ⟨hvalues, hderivatives⟩ := MixtureProblem.trueDerivatives_of_above hphases hP hfloor
  have htrue := hderivatives (fun _ => 1) habove
  refine ⟨hphases, hP, hfloor, habove, (hvalues _).1, ?_, htrue⟩
  have hpotential : isomers.mixture.chemicalPotential (fun _ => 1) = fun _ => -Real.log 2 :=
    funext chemicalPotential_isomers
  rw [← hpotential]
  exact htrue.energy

end Equilibrium

end GibbsNewton
