import GibbsNewton.Equilibrium.Problem
import GibbsNewton.Proofs.Kkt.Definite
import GibbsNewton.Proofs.Mixture.Convex
import GibbsNewton.Proofs.Optimum.Gap

/-!
# Equilibrium problems over the reals

What is optimised in an equilibrium calculation with real data: the constraints are affine, with the
formula matrix and the element amounts; the Gibbs energy lies above its tangents where no amount is
below the floor; and all values are real wherever the logarithms see positive amounts.  The second
derivatives are nonnegative by every choice, the true ones at least above the floor, so that the
Newton systems can be solved exactly when the rows of the formula matrix are independent.

## Main definitions

* `Equilibrium.MixtureProblem` — an equilibrium problem of reals about a mixture, with
  `MixtureProblem.exact`, which reads it as one of exact values.
* `Equilibrium.Scheme.IgnoresFloor`, `Equilibrium.Scheme.Fits` — a choice of second derivatives leaves
  the floor out, or has nonnegative ones at some amounts.

## Main results

* `MixtureProblem.affine_optimum`, `MixtureProblem.tangentsBelow_optimum` — the constraints and the
  objective.
* `MixtureProblem.isFinite_evaluate_optimum` — the values are finite.
* `MixtureProblem.newton?_ne_none_iff` — **there is a Newton direction exactly when the rows of the
  formula matrix are independent.**
-/

namespace GibbsNewton

open Matrix

variable {n m : ℕ}

/-! ### Schemes keep second derivatives nonnegative -/

namespace Hessian

theorem exact_ofMatrix (B : Matrix (Fin n) (Fin n) ℝ) :
    (dense (Mat.ofMatrix B)).exact = .dense (Mat.ofReal B) := by
  rw [exact, Mat.toMatrix_ofMatrix]

theorem exact_diagonal_ofMatrix (B : Matrix (Fin n) (Fin n) ℝ) :
    (diagonal (Mat.ofMatrix B).diag).exact = .diagonal (Mat.ofReal B).diag := by
  rw [exact, Mat.diag_ofReal]
  congr 2
  funext i
  simp [Mat.ofMatrix]

theorem nonneg_ofMatrix {B : Matrix (Fin n) (Fin n) ℝ} (h : ∀ v, 0 ≤ v ⬝ᵥ (B *ᵥ v)) :
    (dense (Mat.ofMatrix B)).Nonneg := by
  intro v
  have hmatrix : (dense (Mat.ofMatrix B)).matrix = B := Mat.toMatrix_ofMatrix B
  rw [hmatrix]
  exact h v

end Hessian

/-- In the form that a scheme asks for, nonnegative second derivatives are nonnegative. -/
theorem Optimum.HessianScheme.exists_apply_exact (scheme : HessianScheme) {H : Hessian ℝ n}
    (hH : H.Nonneg) : ∃ K : Hessian ℝ n, scheme.apply H.exact = K.exact ∧ K.Nonneg := by
  have hdense := Hessian.nonneg_ofMatrix hH
  cases scheme with
  | exact =>
    refine ⟨_, ?_, hdense⟩
    rw [apply, Hessian.toMat_exact, Hessian.exact_ofMatrix]
  | diagonal =>
    cases H with
    | diagonal d => exact ⟨.diagonal d, rfl, hH⟩
    | dense M => exact ⟨_, (Hessian.exact_diagonal_ofMatrix M.toMatrix).symm, hdense.diagonal⟩

namespace Equilibrium

/-- An equilibrium problem of reals, with the Gibbs energy of a mixture. -/
structure MixtureProblem (n m : ℕ) extends Balance ℝ n m where
  /-- The mixture. -/
  mixture : Mixture ℝ n

/-- It is read as a problem of exact values. -/
noncomputable def MixtureProblem.exact (P : MixtureProblem n m) : Problem Exact n m where
  formula := Mat.ofReal P.formula.toMatrix
  amounts := Vec.ofReal ⇑P.amounts
  model := P.mixture.exact.model

/-- The second derivatives are those without the floor. -/
def Scheme.IgnoresFloor (scheme : Scheme) : Prop :=
  scheme = .approximation ∨ scheme = .approximationDiagonal

/-- A choice of second derivatives has nonnegative ones at some amounts: those without the floor are
always nonnegative, the true ones above the floor. -/
def Scheme.Fits (scheme : Scheme) (x : Mixture ℝ n) (a : Fin n → ℝ) : Prop :=
  scheme.IgnoresFloor ∨ x.Above a

/-- The second derivatives at amounts that fit are real and nonnegative. -/
theorem Scheme.Fits.exists_exact {scheme : Scheme} {x : Mixture ℝ n} {a : Fin n → ℝ}
    (h : scheme.Fits x a) (hs : ∀ i, 0 < x.seen a i) :
    ∃ H : Hessian ℝ n, scheme.hessian x.exact.model (Vec.ofReal a) = H.exact ∧ H.Nonneg := by
  have hnonneg := Hessian.nonneg_ofMatrix (x.secondDerivatives_nonneg hs)
  have hcurvature : x.exact.model.approximation (Vec.ofReal a) = Mat.ofReal (x.secondDerivatives a) :=
    Mixture.curvature_ofReal hs
  have htrue : x.Above a →
      x.exact.model.hessian (Vec.ofReal a) = Mat.ofReal (x.secondDerivatives a) := by
    intro ha
    rw [← Mixture.slopedDerivatives_of_above ha]
    exact Mixture.hessian_ofReal hs
  cases scheme with
  | exact =>
    have ha : x.Above a := by simpa [Fits, IgnoresFloor] using h
    exact ⟨_, by rw [Scheme.hessian, htrue ha, Hessian.exact_ofMatrix], hnonneg⟩
  | exactDiagonal =>
    have ha : x.Above a := by simpa [Fits, IgnoresFloor] using h
    exact ⟨_, by rw [Scheme.hessian, htrue ha, Hessian.exact_diagonal_ofMatrix], hnonneg.diagonal⟩
  | approximation =>
    exact ⟨_, by rw [Scheme.hessian, hcurvature, Hessian.exact_ofMatrix], hnonneg⟩
  | approximationDiagonal =>
    exact ⟨_, by rw [Scheme.hessian, hcurvature, Hessian.exact_diagonal_ofMatrix], hnonneg.diagonal⟩

/-- With real element balances the constraints are affine, whatever the model is. -/
theorem Problem.affine_of_balance {p : Problem Exact n m} {W : Matrix (Fin m) (Fin n) ℝ}
    {b : Fin m → ℝ} (hW : p.formula = Mat.ofReal W) (hb : p.amounts = Vec.ofReal b) (scheme : Scheme) :
    (p.optimum scheme).Affine W b where
  constraint_eq a := by
    change (p.formula.mulVec (Vec.ofReal a)).sub p.amounts = _
    rw [hW, hb, Mat.mulVec_ofReal, Vec.sub_ofReal]
  jacobian_eq _ := hW

namespace MixtureProblem

variable (P : MixtureProblem n m)

/-! ### Values -/

/-- The constraints are affine. -/
theorem affine_optimum (scheme : Scheme) :
    (P.exact.optimum scheme).Affine P.formula.toMatrix ⇑P.amounts :=
  Problem.affine_of_balance rfl rfl scheme

variable {P}

/-- **The Gibbs energy lies above its tangents** where no amount is below the floor. -/
theorem tangentsBelow_optimum (hP : 0 < P.mixture.pressure) (scheme : Scheme) :
    (P.exact.optimum scheme).TangentsBelow {a | P.mixture.Above a} P.mixture.gibbs
      P.mixture.chemicalPotential where
  objective_eq _ ha := Mixture.energy_ofReal (Mixture.seen_pos fun i => (ha i).1) hP
  gradient_eq a ha := by
    rw [← Mixture.slopedPotential_of_above ha]
    exact Mixture.gradient_ofReal (Mixture.seen_pos fun i => (ha i).1) hP
  tangent_le _ ha _ hb := Mixture.tangent_le_gibbs ha hb

/-- All values are finite wherever the logarithms see positive amounts. -/
theorem isFinite_evaluate_optimum (hP : 0 < P.mixture.pressure) (scheme : Scheme) {a : Fin n → ℝ}
    (hs : ∀ i, 0 < P.mixture.seen a i) :
    ((P.exact.optimum scheme).evaluate (Vec.ofReal a)).isFinite = true := by
  have haffine := P.affine_optimum scheme
  have hobjective : (P.exact.optimum scheme).objective (Vec.ofReal a) = P.mixture.gibbs a :=
    Mixture.energy_ofReal hs hP
  have hgradient : (P.exact.optimum scheme).gradient (Vec.ofReal a) =
      Vec.ofReal (P.mixture.slopedPotential a) := Mixture.gradient_ofReal hs hP
  rw [Optimum.Problem.evaluate, Optimum.Evaluation.isFinite]
  simp only [hobjective, hgradient, haffine.constraint_eq, haffine.jacobian_eq, Exact.isFinite_coe,
    Vec.isFinite_ofReal, Mat.isFinite_ofReal, Bool.and_self]

/-- The data of a direction at a real state are real, with nonnegative second derivatives. -/
theorem exists_realData (hP : 0 < P.mixture.pressure) {scheme : Scheme}
    (formed : Optimum.HessianScheme) {s : Optimum.State Exact n m} {u : Optimum.Iterate ℝ n m}
    (hu : s.IsAt u) (hvalues : s.values = (P.exact.optimum scheme).evaluate s.x)
    (hs : ∀ i, 0 < P.mixture.seen ⇑u.x i) (hfits : scheme.Fits P.mixture ⇑u.x) :
    ∃ H : Hessian ℝ n, H.Nonneg ∧
      s.RealData (P.exact.optimum scheme) formed H (P.mixture.slopedPotential ⇑u.x)
        (P.formula.toMatrix *ᵥ ⇑u.x - ⇑P.amounts) P.formula.toMatrix := by
  have haffine := P.affine_optimum scheme
  obtain ⟨H, hH, hnonneg⟩ := hfits.exists_exact hs
  obtain ⟨K, hK, hKnonneg⟩ := formed.exists_apply_exact hnonneg
  have hgradient : s.values.gradient = Vec.ofReal (P.mixture.slopedPotential ⇑u.x) := by
    rw [hvalues, hu.x_eq]
    exact Mixture.gradient_ofReal hs hP
  have hhessian : (P.exact.optimum scheme).hessian s.x s.values.gradient = H.exact := by
    rw [hu.x_eq]
    exact hH
  exact ⟨K, hKnonneg,
    { gradient_eq := hgradient
      constraint_eq := haffine.constraint_of_isAt hu hvalues
      jacobian_eq := haffine.jacobian_of_isAt hu hvalues
      hessian_eq := by rw [hhessian, hK] }⟩

/-- **There is a Newton direction exactly when the rows of the formula matrix are independent.** -/
theorem newton?_ne_none_iff (hP : 0 < P.mixture.pressure) {scheme : Scheme}
    {c : Optimum.Settings Exact} {mu : ℝ} (hmu : c.mu = mu) {s : Optimum.State Exact n m}
    {u : Optimum.Iterate ℝ n m} (hu : s.IsAt u)
    (hvalues : s.values = (P.exact.optimum scheme).evaluate s.x)
    (hs : ∀ i, 0 < P.mixture.seen ⇑u.x i) (hfits : scheme.Fits P.mixture ⇑u.x) :
    (P.exact.optimum scheme).newton? c s ≠ none ↔ LinearIndependent ℝ P.formula.toMatrix.row := by
  obtain ⟨H, hnonneg, hreal⟩ := exists_realData hP c.scheme hu hvalues hs hfits
  exact Optimum.Problem.newton?_ne_none_iff_row hu hmu hreal hnonneg

end MixtureProblem

/-! ### Two isomers -/

/-- Two moles of a gas of two isomers of the same standard potential, at standard pressure. -/
noncomputable def isomers : MixtureProblem 2 1 where
  formula := Mat.of fun _ _ => 1
  amounts := Vec.of fun _ => (2 : ℕ)
  mixture := {
    standard := Vec.of fun _ => 0
    pressure := (100000 : ℕ)
    floor := 1 / (10 : ℕ) ^ 50
    phases := [{ name := "gas", kind := "gas", species := List.finRange 2 }]
    partition := by decide }

theorem linearIndependent_row_isomers : LinearIndependent ℝ isomers.formula.toMatrix.row := by
  rw [linearIndependent_row_iff]
  intro y hy
  funext j
  have h0 := congrFun hy 0
  simpa [isomers, mulVec, dotProduct, Subsingleton.elim j 0] using h0

/-- In equal amounts the isomers have the potential of a mixture of halves. -/
theorem chemicalPotential_isomers (i : Fin 2) :
    isomers.mixture.chemicalPotential (fun _ => 1) i = -Real.log 2 := by
  have hphase : isomers.mixture.phaseOf i = ⟨"gas", "gas", List.finRange 2⟩ :=
    Mixture.phaseOf_eq (by simp [isomers]) (List.mem_finRange i)
  have hseen : isomers.mixture.seen (fun _ => 1) = fun _ => 1 :=
    Mixture.seen_of_above fun j => ⟨one_pos, by norm_num [isomers]⟩
  rw [Mixture.chemicalPotential, Mixture.activity, hphase, hseen]
  have hamount : (⟨"gas", "gas", List.finRange 2⟩ : Phase 2).amount (fun _ => 1) = 2 := by
    norm_num [Phase.amount, Phase.members]
  have hpressure : isomers.mixture.logPressure = 0 := by
    norm_num [Mixture.logPressure, isomers]
  rw [Phase.activity, hamount, hpressure]
  simp [isomers, Phase.isMixed]

end Equilibrium

end GibbsNewton
