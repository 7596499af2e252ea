import GibbsNewton.Proofs.Mixture.Convex
import Mathlib.Analysis.Calculus.FDeriv.Pi
import Mathlib.Analysis.SpecialFunctions.Log.Deriv

/-!
# The derivatives of the Gibbs energy are the true ones

Above the floor the chemical potential of a species depends on the amounts through its share of its
phase, and its partial derivatives are the second derivatives without the floor.  That the gradient of
the Gibbs energy is made of the potentials alone, with no term from their own change, is the relation of
Gibbs and Duhem: the second derivatives vanish along the amounts themselves, since twice as much of
everything has the same composition.

## Main definitions

* `HasGradient`, `HasJacobian` — a function of several amounts has these derivatives at a point.

## Main results

* `Mixture.vecMul_secondDerivatives` — **the relation of Gibbs and Duhem.**
* `Mixture.hasJacobian_chemicalPotential` — the derivatives of the potentials.
* `Mixture.hasGradient_gibbs` — **the gradient of the Gibbs energy is the chemical potential.**
-/

namespace GibbsNewton

open Matrix Topology

variable {m n : ℕ}

/-! ### Derivatives in coordinates -/

/-- The linear form that reads off a coordinate. -/
abbrev coordinate (i : Fin n) : (Fin n → ℝ) →L[ℝ] ℝ := ContinuousLinearMap.proj i

/-- The linear form with the given coefficients. -/
def linearForm (g : Fin n → ℝ) : (Fin n → ℝ) →L[ℝ] ℝ := ∑ i, g i • coordinate i

@[simp] theorem linearForm_apply (g v : Fin n → ℝ) : linearForm g v = g ⬝ᵥ v := by
  simp [linearForm, dotProduct]

/-- Linear forms with different coefficients differ. -/
theorem linearForm_inj {g h : Fin n → ℝ} : linearForm g = linearForm h ↔ g = h := by
  refine ⟨fun hgh => ?_, congrArg linearForm⟩
  funext i
  simpa using DFunLike.congr_fun hgh (Pi.single i 1)

/-- The function `f` is differentiable at `a`, with the gradient `g`. -/
def HasGradient (f : (Fin n → ℝ) → ℝ) (g a : Fin n → ℝ) : Prop := HasFDerivAt f (linearForm g) a

/-- The function `F` is differentiable at `a`, with the Jacobian `J`. -/
def HasJacobian (F : (Fin n → ℝ) → Fin m → ℝ) (J : Matrix (Fin m) (Fin n) ℝ) (a : Fin n → ℝ) : Prop :=
  HasFDerivAt F (ContinuousLinearMap.pi fun i => linearForm (J i)) a

/-- A Jacobian has the gradients of the components as its rows. -/
theorem hasJacobian_iff {F : (Fin n → ℝ) → Fin m → ℝ} {J : Matrix (Fin m) (Fin n) ℝ}
    {a : Fin n → ℝ} : HasJacobian F J a ↔ ∀ i, HasGradient (fun v => F v i) (J i) a :=
  hasFDerivAt_pi

/-- There is at most one gradient. -/
theorem HasGradient.unique {f : (Fin n → ℝ) → ℝ} {g h a : Fin n → ℝ} (hg : HasGradient f g a)
    (hh : HasGradient f h a) : g = h :=
  linearForm_inj.mp (HasFDerivAt.unique hg hh)

/-- There is at most one Jacobian, and functions that agree around a point share it. -/
theorem HasJacobian.unique {F G : (Fin n → ℝ) → Fin m → ℝ} {J K : Matrix (Fin m) (Fin n) ℝ}
    {a : Fin n → ℝ} (hF : HasJacobian F J a) (hG : HasJacobian G K a) (h : ∀ᶠ v in 𝓝 a, F v = G v) :
    J = K := by
  funext i
  have hi : HasGradient (fun v => F v i) (K i) a :=
    (hasJacobian_iff.mp hG i).congr_of_eventuallyEq (h.mono fun v hv => congrFun hv i)
  exact (hasJacobian_iff.mp hF i).unique hi

/-! ### One phase -/

/-- How the activity of a species of a phase changes with the amounts, where the phase is mixed; in
other phases it does not. -/
theorem Phase.hasFDerivAt_activity {q : Phase n} {a : Fin n → ℝ} (ha : ∀ i, 0 < a i) {i : Fin n}
    (hi : i ∈ q.species) (p : ℝ) :
    HasFDerivAt (fun v => q.activity v p i)
      (if q.isMixed then (a i)⁻¹ • coordinate i -
        (q.amount a)⁻¹ • ∑ j ∈ q.members, coordinate j else 0) a := by
  cases hmixed : q.isMixed with
  | false =>
    simp only [activity, hmixed, Bool.false_eq_true, if_false]
    exact hasFDerivAt_const _ a
  | true =>
    have hlog : HasFDerivAt (fun v : Fin n → ℝ => Real.log (v i))
        ((a i)⁻¹ • coordinate i) a :=
      (hasFDerivAt_apply i a).log (ha i).ne'
    have hamount : HasFDerivAt q.amount (∑ j ∈ q.members, coordinate j) a :=
      HasFDerivAt.fun_sum fun j _ => hasFDerivAt_apply j a
    simp only [activity, hmixed, if_true]
    exact (hlog.fun_sub (hamount.log (amount_pos ha hi).ne')).add_const _

/-! ### The whole mixture -/

namespace Mixture

variable {x : Mixture ℝ n} {a : Fin n → ℝ}

/-- Around amounts above the floor all amounts are above it. -/
theorem Above.eventually (ha : x.Above a) : ∀ᶠ v in 𝓝 a, x.Above v := by
  have hone : ∀ i, ∀ᶠ v in 𝓝 a, 0 < v i ∧ x.floor < v i := by
    intro i
    have hi := (continuous_apply i).continuousAt (x := a)
    exact (hi.eventually (lt_mem_nhds (ha i).1)).and (hi.eventually (lt_mem_nhds (ha i).2))
  exact Filter.eventually_all.mpr hone

/-- **The relation of Gibbs and Duhem**: weighted with the amounts, the changes of the potentials
cancel. -/
theorem vecMul_secondDerivatives (ha : x.Above a) : a ᵥ* x.secondDerivatives a = 0 := by
  have hseen : x.secondDerivatives a *ᵥ x.seen a = 0 :=
    secondDerivatives_mulVec_seen (seen_pos fun i => (ha i).1)
  rw [seen_of_above ha] at hseen
  rw [← mulVec_transpose, secondDerivatives_transpose, hseen]

/-- **The potentials change as the second derivatives without the floor say.** -/
theorem hasJacobian_chemicalPotential (ha : x.Above a) :
    HasJacobian x.chemicalPotential (x.secondDerivatives a) a := by
  rw [hasJacobian_iff]
  intro i
  have hnear : (fun v => x.chemicalPotential v i) =ᶠ[𝓝 a]
      fun v => x.standard i + (x.phaseOf i).activity v x.logPressure i := by
    filter_upwards [ha.eventually] with v hv
    rw [chemicalPotential, activity, seen_of_above hv]
  have hactivity := Phase.hasFDerivAt_activity (fun j => (ha j).1) (x.mem_phaseOf i) x.logPressure
  refine ((hactivity.const_add (x.standard i)).congr_of_eventuallyEq hnear).congr_fderiv ?_
  ext v
  rw [linearForm_apply]
  have hrow := secondDerivatives_mulVec (a := a) (x.phaseOf_mem i)
    (Phase.mem_members.mpr (x.mem_phaseOf i)) v
  rw [seen_of_above ha] at hrow
  refine Eq.trans ?_ hrow.symm
  cases (x.phaseOf i).isMixed with
  | false => simp
  | true => simp [Phase.amount, div_eq_inv_mul]

/-- **The gradient of the Gibbs energy is the chemical potential.** -/
theorem hasGradient_gibbs (ha : x.Above a) : HasGradient x.gibbs (x.chemicalPotential a) a := by
  have hterm : ∀ i, HasFDerivAt (fun v => v i * x.chemicalPotential v i)
      (a i • linearForm (x.secondDerivatives a i) +
        x.chemicalPotential a i • coordinate i) a := fun i =>
    (hasFDerivAt_apply i a).fun_mul (hasJacobian_iff.mp (hasJacobian_chemicalPotential ha) i)
  have hsum := HasFDerivAt.fun_sum (u := Finset.univ) fun i _ => hterm i
  change HasFDerivAt x.gibbs _ a at hsum
  refine hsum.congr_fderiv ?_
  ext v
  have hduhem : ∑ i, a i * (x.secondDerivatives a i ⬝ᵥ v) = 0 := by
    change a ⬝ᵥ (x.secondDerivatives a *ᵥ v) = 0
    rw [dotProduct_mulVec, vecMul_secondDerivatives ha, zero_dotProduct]
  rw [linearForm_apply, dotProduct]
  simp [Finset.sum_add_distrib, hduhem]

end Mixture

end GibbsNewton
