import GibbsNewton.Proofs.Equilibrium.Problem
import GibbsNewton.Proofs.Optimum.Tilted

/-!
# Reference states

Standard potentials are counted from a reference that may be chosen for every element.  Moving these
references by `l` adds `Wᵀ l` to the standard potentials, and with it `l·(W a)` to the Gibbs energy:
the energy of the mixture is tilted, its second derivatives stay, and amounts in equilibrium must not
change.  Neither do the amounts on the way there.  A run goes through the same amounts and bound
multipliers, whatever the phases, the pressure and the floor, and the multipliers of the elements, the
chemical potentials of their atoms, move by `l`.

With the references where they were this is a statement about warm starts: the multipliers of the
elements that a run starts from have no influence on what comes out of it.

## Main definitions

* `MixtureProblem.rebased` — the problem with other references for the elements.

## Main results

* `Mixture.gradient_addStandard` — what other standard potentials do to the gradient.
* `MixtureProblem.tilted_rebased` — the problem with other references is a tilted one.
* `MixtureProblem.rebased_of_solve` — **other references move the multipliers of the elements and nothing
  else**, and the multipliers of a start do not matter.
-/

namespace GibbsNewton

open Matrix

variable {n m : ℕ}

/-! ### Standard potentials -/

/-- The slopes that a phase adds do not depend on what they are added to. -/
theorem Phase.addSlopes_add (q : Phase n) (a s d g : Vec Exact n) (b : Fin n → ℝ) :
    q.addSlopes a s d (g.add (Vec.ofReal b)) = (q.addSlopes a s d g).add (Vec.ofReal b) := by
  apply Vec.ext
  intro i
  cases hmixed : q.isMixed with
  | false => simp [addSlopes, hmixed]
  | true =>
    by_cases hi : i ∈ q.species
    · simpa [addSlopes, hmixed, hi] using Exact.add_right_comm _ _ _
    · simp [addSlopes, hmixed, hi]

namespace Mixture

/-- A mixture with something added to its standard potentials. -/
noncomputable def addStandard (x : Mixture Exact n) (b : Fin n → ℝ) : Mixture Exact n :=
  { x with standard := x.standard.add (Vec.ofReal b) }

variable (x : Mixture Exact n) (a : Vec Exact n) (b : Fin n → ℝ)

theorem potentials_addStandard :
    (x.addStandard b).potentials a = (x.potentials a).add (Vec.ofReal b) := by
  have hactivities : (x.addStandard b).logActivities a = x.logActivities a := rfl
  apply Vec.ext
  intro i
  rw [potentials, hactivities]
  simpa [potentials, addStandard] using Exact.add_right_comm _ _ _

/-- **What is added to the standard potentials is added to the gradient.** -/
theorem gradient_addStandard :
    (x.addStandard b).gradient a = (x.gradient a).add (Vec.ofReal b) := by
  unfold gradient
  rw [potentials_addStandard]
  exact List.foldl_hom (fun g : Vec Exact n => g.add (Vec.ofReal b)) fun g q =>
    q.addSlopes_add a _ _ g b

/-- The energy is finite or not with the same amounts and potentials. -/
theorem isFinite_energy_addStandard :
    Scalar.isFinite ((x.addStandard b).energy a) = Scalar.isFinite (x.energy a) := by
  rw [Bool.eq_iff_iff, energy, energy, Vec.dot, Vec.dot, Vec.isFinite_sum, Vec.isFinite_sum,
    potentials_addStandard]
  simp

end Mixture

namespace Equilibrium

/-- Second derivatives do not depend on the standard potentials, by no choice. -/
theorem Scheme.hessian_addStandard (scheme : Scheme) (x : Mixture Exact n) (a : Vec Exact n)
    (b : Fin n → ℝ) : scheme.hessian (x.addStandard b).model a = scheme.hessian x.model a := by
  have htrue : (x.addStandard b).hessian a = x.hessian a := rfl
  have hcurvature : (x.addStandard b).curvature a = x.curvature a := rfl
  cases scheme with
  | exact => exact congrArg Hessian.dense htrue
  | exactDiagonal => exact congrArg (fun H => Hessian.diagonal (Mat.diag H)) htrue
  | approximation => exact congrArg Hessian.dense hcurvature
  | approximationDiagonal => exact congrArg (fun H => Hessian.diagonal (Mat.diag H)) hcurvature

namespace MixtureProblem

/-- The problem with the references of the elements moved by `l`. -/
noncomputable def rebased (P : MixtureProblem n m) (l : Fin m → ℝ) : MixtureProblem n m :=
  { P with mixture := { P.mixture with
      standard := Vec.of (⇑P.mixture.standard + P.formula.toMatrixᵀ *ᵥ l) } }

variable (P : MixtureProblem n m) (l : Fin m → ℝ)

theorem model_exact_rebased :
    (P.rebased l).exact.model = (P.mixture.exact.addStandard (P.formula.toMatrixᵀ *ᵥ l)).model := by
  simp [rebased, exact, Mixture.exact, Mixture.addStandard]

/-- **The problem with other references is a tilted one.** -/
theorem tilted_rebased (scheme : Scheme) :
    (P.exact.optimum scheme).Tilted ((P.rebased l).exact.optimum scheme) P.formula.toMatrix l where
  isFinite_objective a := by
    unfold Problem.optimum
    rw [model_exact_rebased]
    exact P.mixture.exact.isFinite_energy_addStandard a _
  gradient_eq a := by
    unfold Problem.optimum
    rw [model_exact_rebased]
    exact P.mixture.exact.gradient_addStandard a _
  hessian_eq a g g' := by
    unfold Problem.optimum
    rw [model_exact_rebased]
    exact scheme.hessian_addStandard P.mixture.exact a _
  constraint_eq _ := rfl
  jacobian_eq _ := rfl
  jacobian_eq' _ := rfl

/-- **Other references move the multipliers of the elements and nothing else.**  Whatever the
references and whatever the multipliers of the elements in the start, solvers that make full steps for
these answer runs through the same amounts and bound multipliers, by steps of the same lengths, with
the same report; after the first update the multipliers of the elements are moved by as much as the
references.  So with the references where they were the multipliers of the start do not matter: the
report is the same, and so is the final state as soon as there was an update. -/
theorem rebased_of_solve (scheme : Scheme) (w w' : Optimum.Newton Exact)
    {o : Optimum.Options Exact} {c : Optimum.Settings Exact} (ho : o.check = .ok c)
    (huniform : o.uniform = false) (s : Optimum.Start ℝ) (y' : List ℝ) :
    (∃ run v run' v' us us',
      w.solve (P.exact.optimum scheme) o s.exact = .ok (run, v) ∧
      w'.solve ((P.rebased l).exact.optimum scheme) o ({ s with y := y' } : Optimum.Start ℝ).exact =
        .ok (run', v') ∧
      run.Tilted (P.exact.optimum scheme) c us l run' ((P.rebased l).exact.optimum scheme) c us') ∧
    ∃ run v run' v',
      w.solve (P.exact.optimum scheme) o s.exact = .ok (run, v) ∧
      w'.solve (P.exact.optimum scheme) o ({ s with y := y' } : Optimum.Start ℝ).exact =
        .ok (run', v') ∧
      run'.report = run.report ∧ (0 < run.moves → run'.final = run.final) := by
  constructor
  · exact w.tilted_of_solve w' (P.tilted_rebased l scheme) ho huniform s y'
  · have htilt : (P.exact.optimum scheme).Tilted (P.exact.optimum scheme) P.formula.toMatrix 0 :=
      .of_zero (fun _ _ _ => rfl) fun _ => rfl
    obtain ⟨run, v, run', v', us, us', hv, hv', htilted⟩ :=
      w.tilted_of_solve w' htilt ho huniform s y'
    exact ⟨run, v, run', v', hv, hv', htilted.endsAlike.report_eq, htilted.final_eq⟩

/-- The isomers with the reference of their element moved by one, from starts with and without a
multiplier for it. -/
theorem rebased_of_solve_isomers :
    ∃ c, (Optimum.Options.default : Optimum.Options Exact).check = .ok c ∧
      (Optimum.Options.default : Optimum.Options Exact).uniform = false ∧
      (∃ run v run' v' us us',
        ({} : Optimum.Newton Exact).solve (isomers.exact.optimum .exact) .default
          (Optimum.Start.exact {}) = .ok (run, v) ∧
        ({} : Optimum.Newton Exact).solve ((isomers.rebased ![1]).exact.optimum .exact) .default
          (Optimum.Start.exact { y := [5] }) = .ok (run', v') ∧
        run.Tilted (isomers.exact.optimum .exact) c us ![1] run'
          ((isomers.rebased ![1]).exact.optimum .exact) c us') ∧
      ∃ run v run' v',
        ({} : Optimum.Newton Exact).solve (isomers.exact.optimum .exact) .default
          (Optimum.Start.exact {}) = .ok (run, v) ∧
        ({} : Optimum.Newton Exact).solve (isomers.exact.optimum .exact) .default
          (Optimum.Start.exact { y := [5] }) = .ok (run', v') ∧
        run'.report = run.report ∧ (0 < run.moves → run'.final = run.final) := by
  obtain ⟨c, hc⟩ := Optimum.Options.exists_check_default
  exact ⟨c, hc, rfl, rebased_of_solve isomers ![1] .exact {} {} hc rfl {} [5]⟩

end MixtureProblem

end Equilibrium

end GibbsNewton
