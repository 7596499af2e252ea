import GibbsNewton.Proofs.Mixture.Real

/-!
# Mixtures scale

Twice as much of everything has the same composition.  The logarithmic activities of a species depend
on its share of its phase, and so, as long as no amount is below the floor, the chemical potentials
stay when all amounts are multiplied by a factor; the Gibbs energy is multiplied by it, and its second
derivatives are divided by it.

The statements about exact values hold at any pressure: where its logarithm is not defined, the
potentials of gases are not defined for either amounts.

## Main results

* `Mixture.logActivities_scale`, `Mixture.gradient_scale` — **potentials do not depend on the scale.**
* `Mixture.gibbs_scale` — the Gibbs energy is homogeneous.
* `Mixture.secondDerivatives_scale` — second derivatives are divided by the factor.
-/

namespace GibbsNewton

variable {n : ℕ} {σ : ℝ} {a : Fin n → ℝ}

/-! ### One phase -/

namespace Phase

variable {q : Phase n}

theorem amount_scale (σ : ℝ) (a : Fin n → ℝ) :
    q.amount (fun i => σ * a i) = σ * q.amount a := by
  rw [amount, amount, Finset.mul_sum]

/-- The share of a species in its phase does not depend on the scale. -/
theorem log_share_scale (hσ : 0 < σ) (ha : ∀ i, 0 < a i) {i : Fin n} (hi : i ∈ q.species) :
    Real.log (σ * a i) - Real.log (q.amount fun i => σ * a i) =
      Real.log (a i) - Real.log (q.amount a) := by
  have hamount : q.amount a ≠ 0 := (amount_pos ha hi).ne'
  rw [amount_scale, Real.log_mul hσ.ne' (ha i).ne', Real.log_mul hσ.ne' hamount]
  ring

theorem activity_scale (hσ : 0 < σ) (ha : ∀ i, 0 < a i) {i : Fin n} (hi : i ∈ q.species) (t : ℝ) :
    q.activity (fun i => σ * a i) t i = q.activity a t i := by
  rw [activity, activity, log_share_scale hσ ha hi]

/-- What a phase puts in for its species does not depend on the scale. -/
theorem putActivities_scale (hq : q.species.Nodup) (hσ : 0 < σ) (ha : ∀ i, 0 < a i) (t : Exact)
    (L : Vec Exact n) :
    q.putActivities (Vec.ofReal fun i => σ * a i) t L = q.putActivities (Vec.ofReal a) t L := by
  have hpos : ∀ i, 0 < σ * a i := fun i => mul_pos hσ (ha i)
  apply Vec.ext
  intro i
  by_cases hi : i ∈ q.species
  · have hshare : Scalar.log (Vec.ofReal (fun i => σ * a i) i) -
        Scalar.log (q.total (Vec.ofReal fun i => σ * a i)) =
          Scalar.log (Vec.ofReal a i) - Scalar.log (q.total (Vec.ofReal a)) := by
      rw [total_ofReal hq, total_ofReal hq, Vec.ofReal_apply, Vec.ofReal_apply,
        Exact.log_coe (hpos i), Exact.log_coe (ha i), Exact.log_coe (amount_pos hpos hi),
        Exact.log_coe (amount_pos ha hi), Exact.sub_coe, Exact.sub_coe, log_share_scale hσ ha hi]
    simp only [putActivities, Vec.of_apply, hshare]
  · rw [putActivities_of_notMem hi, putActivities_of_notMem hi]

/-- Above the floor the slopes that a phase adds are zero. -/
theorem addSlopes_of_above (hq : q.species.Nodup) (ha : ∀ i, 0 < a i) (g : Vec Exact n) :
    q.addSlopes (Vec.ofReal a) (Vec.ofReal a) (Vec.ofReal fun _ => 1) g = g := by
  apply Vec.ext
  intro i
  by_cases hi : i ∈ q.species
  · have hamount : q.amount a ≠ 0 := (amount_pos ha hi).ne'
    have hcontains : q.species.contains i = true := by simpa using hi
    rw [addSlopes]
    cases hmixed : q.isMixed with
    | false => rfl
    | true =>
      rw [if_pos rfl, Vec.of_apply, if_pos hcontains, total_ofReal hq, Exact.div_coe _ hamount,
        Vec.ofReal_apply, Vec.ofReal_apply, Exact.div_coe _ (ha i).ne', div_self (ha i).ne',
        div_self hamount]
      cases g i with
      | undefined => rfl
      | real r => simp
  · rw [addSlopes_of_notMem hi]

end Phase

/-! ### The whole mixture -/

namespace Mixture

variable {x : Mixture ℝ n} (hσ : 0 < σ) (ha : x.Above a) (ha' : x.Above fun i => σ * a i)

section

include hσ ha ha'

/-- **The logarithmic activities do not depend on the scale.** -/
theorem logActivities_scale :
    x.exact.logActivities (Vec.ofReal fun i => σ * a i) = x.exact.logActivities (Vec.ofReal a) := by
  unfold logActivities
  rw [raised_ofReal, raised_ofReal, seen_of_above ha, seen_of_above ha']
  apply List.foldl_ext
  intro L q hq
  exact Phase.putActivities_scale (nodup_of_isPartition x.partition hq) hσ (fun i => (ha i).1) _ L

theorem potentials_scale :
    x.exact.potentials (Vec.ofReal fun i => σ * a i) = x.exact.potentials (Vec.ofReal a) := by
  rw [potentials, potentials, logActivities_scale hσ ha ha']

theorem chemicalPotential_scale :
    x.chemicalPotential (fun i => σ * a i) = x.chemicalPotential a := by
  funext i
  rw [chemicalPotential, chemicalPotential, activity, activity, seen_of_above ha, seen_of_above ha',
    Phase.activity_scale hσ (fun i => (ha i).1) (x.mem_phaseOf i)]

/-- **The Gibbs energy is homogeneous.** -/
theorem gibbs_scale : x.gibbs (fun i => σ * a i) = σ * x.gibbs a := by
  rw [gibbs, gibbs, chemicalPotential_scale hσ ha ha', dotProduct, dotProduct, Finset.mul_sum]
  exact Finset.sum_congr rfl fun i _ => mul_assoc _ _ _

omit hσ in
/-- **Second derivatives are divided by the factor.** -/
theorem secondDerivatives_scale (i j : Fin n) :
    x.secondDerivatives (fun i => σ * a i) i j = x.secondDerivatives a i j / σ := by
  rw [secondDerivatives, secondDerivatives, seen_of_above ha, seen_of_above ha']
  simp only [Matrix.of_apply, Phase.amount_scale]
  by_cases hphase : ((x.phaseOf i).isMixed && (x.phaseOf i).species.contains j) = true
  · rw [if_pos hphase, if_pos hphase]
    by_cases hij : i = j
    · rw [if_pos hij, if_pos hij, sub_div, div_div, div_div, mul_comm σ, mul_comm σ]
    · rw [if_neg hij, if_neg hij, zero_sub, zero_sub, neg_div, div_div, mul_comm σ]
  · rw [if_neg hphase, if_neg hphase, zero_div]

end

/-- Above the floor the gradient is made of the potentials, where these are defined or not. -/
theorem gradient_eq_potentials (ha : x.Above a) :
    x.exact.gradient (Vec.ofReal a) = x.exact.potentials (Vec.ofReal a) := by
  have hslope : x.seenSlope a = fun _ => 1 := funext (seenSlope_of_above ha)
  unfold gradient
  rw [raised_ofReal, map_slope_ofReal, seen_of_above ha, hslope]
  calc x.exact.phases.foldl (fun g q => q.addSlopes (Vec.ofReal a) (Vec.ofReal a)
          (Vec.ofReal fun _ => 1) g) (x.exact.potentials (Vec.ofReal a))
      = x.exact.phases.foldl (fun g _ => g) (x.exact.potentials (Vec.ofReal a)) := by
        apply List.foldl_ext
        intro g q hq
        exact Phase.addSlopes_of_above (nodup_of_isPartition x.partition hq) (fun i => (ha i).1) g
    _ = x.exact.potentials (Vec.ofReal a) := List.foldl_fixed _

include hσ ha ha' in
/-- **The gradient does not depend on the scale.** -/
theorem gradient_scale :
    x.exact.gradient (Vec.ofReal fun i => σ * a i) = x.exact.gradient (Vec.ofReal a) := by
  rw [gradient_eq_potentials ha, gradient_eq_potentials ha', potentials_scale hσ ha ha']

end Mixture

end GibbsNewton
