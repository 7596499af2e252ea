import GibbsNewton.Proofs.Equilibrium.Problem
import GibbsNewton.Proofs.Optimum.Solved

/-!
# How good a calculated equilibrium is

The multipliers of a converged run certify that its point is nearly optimal.  This is so for every
problem with affine constraints whose objective lies above its tangents at positive points, and for
every equilibrium problem as far as amounts above the floor are concerned, whatever its phases are.

## Main definitions

* `Problem.Certifies` — the runs of solvers that converge end nearly optimal.

## Main results

* `nearlyOptimal_of_solve` — **converged runs certify that they are nearly optimal**, in general and
  for the Gibbs energy.
-/

namespace GibbsNewton

open Matrix

variable {n m : ℕ}

/-- Whatever a solver was used for before, whatever the start and the accepted options, the run that it
answers ends nearly optimal if it converges. -/
def Optimum.Problem.Certifies (p : Problem Exact n m) (A : Matrix (Fin m) (Fin n) ℝ) (b : Fin m → ℝ)
    (D : Set (Fin n → ℝ)) (f : (Fin n → ℝ) → ℝ) : Prop :=
  ∀ (w : Newton Exact) (o : Options Exact) (c : Settings Exact) (s : Start ℝ),
    o.check = .ok c → 0 < o.mux →
      ∃ run w', w.solve p o s.exact = .ok (run, w') ∧
        run.start = (s.exact.iterate o.mu o.mux n m).evaluate p ∧
        (run.report.status = .converged → run.NearlyOptimal o A b D f)

namespace Equilibrium

/-- **Converged runs certify that they are nearly optimal.**  This holds of every problem with affine
constraints whose objective lies above its tangents at positive points; and of every equilibrium
problem among the amounts above the floor, where the Gibbs energy lies above its tangents and its
gradient is the chemical potential. -/
theorem nearlyOptimal_of_solve :
    (∀ (p : Optimum.Problem Exact n m) (A : Matrix (Fin m) (Fin n) ℝ) (b : Fin m → ℝ)
        (f : (Fin n → ℝ) → ℝ) (g : (Fin n → ℝ) → Fin n → ℝ), p.Affine A b →
      p.TangentsBelow {x | ∀ i, 0 < x i} f g → p.Certifies A b {x | ∀ i, 0 < x i} f) ∧
    ∀ (P : MixtureProblem n m) (scheme : Scheme), 0 < P.mixture.pressure →
      (P.exact.optimum scheme).TangentsBelow {a | P.mixture.Above a} P.mixture.gibbs
        P.mixture.chemicalPotential ∧
      (∀ a, P.mixture.Above a →
        P.mixture.exact.potentials (Vec.ofReal a) = Vec.ofReal (P.mixture.chemicalPotential a)) ∧
      (P.exact.optimum scheme).Certifies P.formula.toMatrix ⇑P.amounts {a | P.mixture.Above a}
        P.mixture.gibbs := by
  constructor
  · intro p A b f g hp hf w o c s ho hmux
    exact w.nearlyOptimal_of_converged hp (fun _ hx => hx) hf ho hmux s
  · intro P scheme hP
    have hf := MixtureProblem.tangentsBelow_optimum hP scheme
    refine ⟨hf, fun a ha => Mixture.potentials_ofReal (Mixture.seen_pos fun i => (ha i).1) hP, ?_⟩
    intro w o c s ho hmux
    exact w.nearlyOptimal_of_converged (P.affine_optimum scheme) (fun a ha i => (ha i).1) hf ho hmux s

/-! ### Two isomers -/

/-- The iterate at which the isomers are in equilibrium, for a barrier parameter. -/
noncomputable def isomersBalanced (mu : ℝ) : Optimum.Iterate ℝ 2 1 where
  x := Vec.of fun _ => 1
  y := Vec.of fun _ => -Real.log (2 : ℕ) - mu
  z := Vec.of fun _ => mu

/-- The isomers are above the floor there. -/
theorem above_isomersBalanced (mu : ℝ) : isomers.mixture.Above ⇑(isomersBalanced mu).x :=
  fun i => by norm_num [isomers, isomersBalanced]

/-- No residual is left there. -/
theorem solved_isomersBalanced (scheme : Scheme) {mu : ℝ} (hmu : 0 < mu) :
    ((isomersBalanced mu).exact.evaluate (isomers.exact.optimum scheme)).Solved (mu : Exact) := by
  set s := (isomersBalanced mu).exact.evaluate (isomers.exact.optimum scheme)
  have hs : s.IsAt (isomersBalanced mu) :=
    ⟨rfl, fun i => by norm_num [isomersBalanced], fun i => by simpa [isomersBalanced] using hmu⟩
  have haffine := isomers.affine_optimum scheme
  have hgradient : s.values.gradient =
      Vec.ofReal (isomers.mixture.chemicalPotential ⇑(isomersBalanced mu).x) :=
    (MixtureProblem.tangentsBelow_optimum (by norm_num [isomers]) scheme).gradient_eq _
      (above_isomersBalanced mu)
  have hpotential : isomers.mixture.chemicalPotential ⇑(isomersBalanced mu).x =
      fun _ => -Real.log 2 := by
    funext i
    rw [← chemicalPotential_isomers i, isomersBalanced, Vec.get_of]
  constructor
  · rw [hs.lagrangian_eq hgradient (haffine.jacobian_of_isAt hs rfl), hpotential, Vec.ofReal_inj]
    funext i
    simp [isomers, isomersBalanced, mulVec, dotProduct]
  · rw [haffine.constraint_of_isAt hs rfl, Vec.ofReal_inj]
    funext j
    norm_num [isomers, isomersBalanced, mulVec, dotProduct]
  · rw [hs.complementarity_eq, Vec.ofReal_inj]
    funext i
    simp [isomersBalanced]

/-- A run from there converges and stays there. -/
theorem solve_isomersBalanced {c : Optimum.Settings Exact}
    (hc : (Optimum.Options.default : Optimum.Options Exact).check = .ok c) :
    ∃ run w', ({} : Optimum.Newton Exact).solve (isomers.exact.optimum .exact) .default
        (isomersBalanced (1 / 10 ^ 20)).toStart.exact = .ok (run, w') ∧
      run.report.status = .converged ∧
      run.final.toIterate = (isomersBalanced (1 / 10 ^ 20)).exact := by
  have hmu := Optimum.Options.mu_default
  have hmux := Optimum.Options.mux_default
  set u := isomersBalanced (1 / 10 ^ 20)
  have hx : ∀ i, u.x i = 1 := fun i => by simp [u, isomersBalanced]
  have hz : ∀ i, 0 < u.z i := fun i => by simp [u, isomersBalanced]
  have hstart : (u.toStart.exact.iterate (Optimum.Options.default : Optimum.Options Exact).mu
      Optimum.Options.default.mux 2 1) = u.exact := by
    rw [hmu, hmux]
    exact u.iterate_toStart hz fun i => by rw [hx]; norm_num
  have hu : (u.exact.evaluate (isomers.exact.optimum .exact)).IsAt u :=
    ⟨rfl, fun i => by rw [hx]; exact one_pos, hz⟩
  have habove := above_isomersBalanced (1 / 10 ^ 20)
  have hseen := Mixture.seen_pos (x := isomers.mixture) hu.x_pos
  have hP : 0 < isomers.mixture.pressure := by norm_num [isomers]
  have hsettings : c.mu = ((1 / 10 ^ 20 : ℝ) : Exact) :=
    (Optimum.Options.accepted_of_check hc).mu_eq.trans hmu
  obtain ⟨run, w', hw', hstatus, -, hfinal⟩ := Optimum.Newton.converged_of_solved {}
    (isomers.exact.optimum .exact) hc Optimum.Options.mux_default_pos
    Optimum.Options.tolerance_default_pos u.toStart
    (by rw [hstart, hmu]; exact solved_isomersBalanced .exact (by positivity))
    (by rw [hstart]; exact MixtureProblem.isFinite_evaluate_optimum hP .exact hseen)
    (by
      rw [hstart]
      exact (MixtureProblem.newton?_ne_none_iff hP hsettings hu rfl hseen (.inr habove)).mpr
        linearIndependent_row_isomers)
  rw [hstart] at hfinal
  exact ⟨run, w', hw', hstatus, by rw [hfinal]; rfl⟩

theorem converged_isomersBalanced {c : Optimum.Settings Exact}
    (hc : (Optimum.Options.default : Optimum.Options Exact).check = .ok c) :
    ∃ run w', ({} : Optimum.Newton Exact).solve (isomers.exact.optimum .exact) .default
        (isomersBalanced (1 / 10 ^ 20)).toStart.exact = .ok (run, w') ∧
      run.report.status = .converged := by
  obtain ⟨run, w', hw', hstatus, -⟩ := solve_isomersBalanced hc
  exact ⟨run, w', hw', hstatus⟩

/-- Two shares of a whole; and two isomers in equilibrium, where the run has converged. -/
theorem nearlyOptimal_of_solve_isomers :
    Optimum.shares.Certifies !![1, 1] ![1] {x | ∀ i, 0 < x i} (fun x => x 0) ∧
    ∃ c, (Optimum.Options.default : Optimum.Options Exact).check = .ok c ∧
      ∃ run w', ({} : Optimum.Newton Exact).solve (isomers.exact.optimum .exact) .default
          (isomersBalanced (1 / 10 ^ 20)).toStart.exact = .ok (run, w') ∧
        run.report.status = .converged ∧
        run.NearlyOptimal .default isomers.formula.toMatrix ⇑isomers.amounts
          {a | isomers.mixture.Above a} isomers.mixture.gibbs := by
  constructor
  · refine nearlyOptimal_of_solve.1 Optimum.shares _ _ _ (fun _ => ![1, 0]) Optimum.affine_shares ?_
    refine ⟨fun x _ => Vec.ofReal_apply x 0, fun x _ => rfl, fun x _ x' _ => ?_⟩
    simp [dotProduct, Fin.sum_univ_two]
  · obtain ⟨c, hc⟩ := Optimum.Options.exists_check_default
    obtain ⟨run, w', hw', hstatus⟩ := converged_isomersBalanced hc
    obtain ⟨-, -, hcertifies⟩ :=
      nearlyOptimal_of_solve.2 isomers .exact (by norm_num [isomers])
    obtain ⟨run', w'', hw'', -, hnear⟩ := hcertifies {} _ c (isomersBalanced (1 / 10 ^ 20)).toStart hc
      Optimum.Options.mux_default_pos
    obtain ⟨rfl, rfl⟩ := Prod.mk.inj (Except.ok.inj (hw'.symm.trans hw''))
    exact ⟨c, hc, run, w', hw', hstatus, hnear hstatus⟩

end Equilibrium

end GibbsNewton
