import GibbsNewton.Proofs.Equilibrium.Problem
import GibbsNewton.Proofs.Mixture.Homogeneous
import GibbsNewton.Proofs.Optimum.Coordinates

/-!
# Scaling a system

An equilibrium calculation does not know how much matter it is about.  With `σ` times the element
amounts, from a start with `σ` times the amounts, and with a barrier parameter measured in the same
unit, a run goes through `σ` times the amounts, with the same multipliers and by steps of the same
lengths.  This holds from the start, where amounts are raised to a multiple of the barrier parameter
and missing bound multipliers are made of it, to the first iterate at which an amount is not above the
floor; for the floor is the one length that does not scale.

## Main definitions

* `MixtureProblem.scaled` — the problem with another amount of matter.
* `Optimum.Run.Scaled` — one run is another one at another scale.

## Main results

* `Scheme.hessian_of_above` — second derivatives above the floor, by every choice.
* `MixtureProblem.inCoordinates_scaled` — the scaled problem is the problem in another unit.
* `MixtureProblem.scaled_of_solve` — **scaling the system scales the run.**
-/

namespace GibbsNewton

open Matrix

variable {n m : ℕ}

/-- The coordinates that change the unit of the variables. -/
def Coordinates.ofScale (n m : ℕ) {σ : ℝ} (hσ : 0 < σ) : Coordinates n m where
  scale := σ
  scale_pos := hσ
  order := 1
  basis := 1

namespace Optimum

/-- Another unit of the variables changes nothing else of an iterate. -/
theorem Iterate.inCoordinates_ofScale (u : Iterate ℝ n m) {σ : ℝ} (hσ : 0 < σ) :
    u.inCoordinates (.ofScale n m hσ) = { u with x := u.x.map (σ * ·) } := by
  have hx : Vec.of ((Coordinates.ofScale n m hσ).primal ⇑u.x) = u.x.map (σ * ·) := by
    apply Vec.ext
    intro i
    simp [Coordinates.ofScale]
  have hy : Vec.of ((Coordinates.ofScale n m hσ).multiplier ⇑u.y) = u.y := by
    apply Vec.ext
    intro i
    simp [Coordinates.multiplier_apply, Coordinates.ofScale]
  have hz : Vec.of ((Coordinates.ofScale n m hσ).dual ⇑u.z) = u.z := by
    apply Vec.ext
    intro i
    simp [Coordinates.ofScale]
  rw [inCoordinates, hx, hy, hz]

/-- A start with another unit of the variables, whatever the sizes of its vectors. -/
theorem Start.sized_scale (s : Start ℝ) {σ : ℝ} (hσ : 0 < σ) :
    ({ s with x := s.x.map (σ * ·) } : Start ℝ).sized n m =
      (s.sized n m).inCoordinates (.ofScale n m hσ) := by
  have hx : (Vec.ofList? n (s.x.map (σ * ·))).getD (Vec.of 0) =
      ((Vec.ofList? n s.x).getD (Vec.of 0)).map (σ * ·) := by
    apply Vec.ext
    intro i
    by_cases hn : s.x.length = n
    · rw [Vec.ofList?_of_length hn, Vec.ofList?_of_length (by simpa using hn)]
      simp
    · have hnone : Vec.ofList? n s.x = none := dif_neg hn
      have hnone' : Vec.ofList? n (s.x.map (σ * ·)) = none := dif_neg (by simpa using hn)
      rw [hnone, hnone']
      simp
  rw [Iterate.inCoordinates_ofScale]
  simp only [sized, hx]

/-! ### Runs -/

/-- The amounts at a state are all above a floor. -/
def State.Above (t : State Exact n m) (floor : ℝ) : Prop := ∀ i, (floor : Exact) < t.x i

section

variable {t t' : State Exact n m} {p p' : Problem Exact n m} {σ : ℝ} {hσ : 0 < σ} {u : Iterate ℝ n m}

/-- Corresponding states have the same multipliers, and the variables of one are a multiple of those of
the other. -/
theorem State.Corresponds.scaled (h : t.Corresponds t' p p' (.ofScale n m hσ) u) :
    t'.x = t.x.map ((σ : Exact) * ·) ∧ t'.y = t.y ∧ t'.z = t.z := by
  rw [h.isAt.x_eq, h.isAt.y_eq, h.isAt.z_eq, h.isAt'.x_eq, h.isAt'.y_eq, h.isAt'.z_eq,
    Iterate.inCoordinates_ofScale]
  refine ⟨Vec.ext fun i => ?_, rfl, rfl⟩
  simp

/-- Where two corresponding states are above the floor, so are their amounts in either unit. -/
theorem State.Corresponds.above (h : t.Corresponds t' p p' (.ofScale n m hσ) u)
    {x : Mixture ℝ n} (ht : t.Above x.floor) (ht' : t'.Above x.floor) :
    x.Above ⇑u.x ∧ x.Above fun i => σ * u.x i := by
  refine ⟨fun i => ⟨h.isAt.x_pos i, ?_⟩, fun i => ⟨mul_pos hσ (h.isAt.x_pos i), ?_⟩⟩
  · simpa [h.isAt.x_eq] using ht i
  · simpa [h.scaled.1, h.isAt.x_eq] using ht' i

end

/-- The run `r'` is the run `r` at `σ` times its scale, as long as all amounts of both are above a
floor: its states have `σ` times the variables and the same multipliers, and its steps are the same. -/
structure Run.Scaled (r : Run Exact n m) (p : Problem Exact n m) (c : Settings Exact)
    (us : List (Update Exact n m)) (σ floor : ℝ) (r' : Run Exact n m) (p' : Problem Exact n m)
    (c' : Settings Exact) (us' : List (Update Exact n m)) : Prop where
  allUpdates : r.AllUpdates p c us
  allUpdates' : r'.AllUpdates p' c' us'
  iterates : ∀ k, (∀ j < k, r.PairedAt r' (fun t t' => t.Above floor ∧ t'.Above floor) j) →
    r.PairedAt r' (fun t t' => t'.x = t.x.map ((σ : Exact) * ·) ∧ t'.y = t.y ∧ t'.z = t.z) k
  stepsAlike : ∀ k, (∀ j ≤ k, r.PairedAt r' (fun t t' => t.Above floor ∧ t'.Above floor) j) →
    r.StepsAlike p c us r' p' c' us' k

end Optimum

namespace Equilibrium

/-! ### Second derivatives above the floor -/

/-- The form in which a choice gives second derivatives. -/
def Scheme.form (scheme : Scheme) (B : Matrix (Fin n) (Fin n) ℝ) : Hessian ℝ n :=
  match scheme with
  | exact => .dense (Mat.ofMatrix B)
  | exactDiagonal => .diagonal (Mat.ofMatrix B).diag
  | approximation => .dense (Mat.ofMatrix B)
  | approximationDiagonal => .diagonal (Mat.ofMatrix B).diag

/-- **Above the floor all choices are made of the same second derivatives.** -/
theorem Scheme.hessian_of_above (scheme : Scheme) {x : Mixture ℝ n} {a : Fin n → ℝ}
    (ha : x.Above a) :
    scheme.hessian x.exact.model (Vec.ofReal a) = (scheme.form (x.secondDerivatives a)).exact := by
  have hs : ∀ i, 0 < x.seen a i := Mixture.seen_pos fun i => (ha i).1
  have htrue : x.exact.model.hessian (Vec.ofReal a) = Mat.ofReal (x.secondDerivatives a) := by
    rw [← Mixture.slopedDerivatives_of_above ha]
    exact Mixture.hessian_ofReal hs
  have hcurvature : x.exact.model.approximation (Vec.ofReal a) = Mat.ofReal (x.secondDerivatives a) :=
    Mixture.curvature_ofReal hs
  cases scheme with
  | exact => rw [Scheme.hessian, htrue, form, Hessian.exact_ofMatrix]
  | exactDiagonal => rw [Scheme.hessian, htrue, form, Hessian.exact_diagonal_ofMatrix]
  | approximation => rw [Scheme.hessian, hcurvature, form, Hessian.exact_ofMatrix]
  | approximationDiagonal => rw [Scheme.hessian, hcurvature, form, Hessian.exact_diagonal_ofMatrix]

/-- In another unit second derivatives are given in the same form. -/
theorem Scheme.form_ofScale (scheme : Scheme) {σ : ℝ} (hσ : 0 < σ)
    {B B' : Matrix (Fin n) (Fin n) ℝ} (hB : ∀ i j, B' i j = B i j / σ) :
    scheme.form B' = (Coordinates.ofScale n m hσ).hessian (scheme.form B) := by
  have hdense : Hessian.dense (Mat.ofMatrix B') =
      (Coordinates.ofScale n m hσ).hessian (.dense (Mat.ofMatrix B)) :=
    congrArg Hessian.dense (Mat.ext_apply fun i j => by
      simp [Mat.ofMatrix, Coordinates.ofScale, hB])
  have hdiagonal : Hessian.diagonal (Mat.ofMatrix B').diag =
      (Coordinates.ofScale n m hσ).hessian (.diagonal (Mat.ofMatrix B).diag) :=
    congrArg Hessian.diagonal (Vec.ext fun i => by
      simp [Mat.ofMatrix, Coordinates.ofScale, hB])
  cases scheme with
  | exact => exact hdense
  | exactDiagonal => exact hdiagonal
  | approximation => exact hdense
  | approximationDiagonal => exact hdiagonal

namespace MixtureProblem

variable (P : MixtureProblem n m)

/-- The problem with `σ` times the amounts of the elements. -/
noncomputable def scaled (σ : ℝ) : MixtureProblem n m := { P with amounts := Vec.of (σ • ⇑P.amounts) }

/-- **The scaled problem is the problem in another unit**, where no amount is below the floor in either
unit. -/
theorem inCoordinates_scaled (scheme : Scheme) {σ : ℝ} (hσ : 0 < σ) :
    (P.exact.optimum scheme).InCoordinates ((P.scaled σ).exact.optimum scheme) (.ofScale n m hσ)
      {a | P.mixture.Above a ∧ P.mixture.Above fun i => σ * a i} := by
  have hpoint : ∀ a, (Coordinates.ofScale n m hσ).primal a = fun i => σ * a i := fun _ => rfl
  have hsame : ∀ v : Vec Exact n, v.reorder 1 = v := by
    intro v
    apply Vec.ext
    intro i
    simp
  refine ⟨fun a ha => ?_, fun a ha g => ?_, fun a _ => ?_, fun a _ => ?_⟩
  · rw [hpoint, Coordinates.ofScale, hsame]
    exact Mixture.gradient_scale hσ ha.1 ha.2
  · have hsecond : ∀ i j, P.mixture.secondDerivatives (fun i => σ * a i) i j =
        P.mixture.secondDerivatives a i j / σ := Mixture.secondDerivatives_scale ha.1 ha.2
    calc scheme.hessian P.mixture.exact.model (Vec.ofReal ((Coordinates.ofScale n m hσ).primal a))
        = (scheme.form (P.mixture.secondDerivatives fun i => σ * a i)).exact :=
          scheme.hessian_of_above ha.2
      _ = ((Coordinates.ofScale n m hσ).hessian (scheme.form (P.mixture.secondDerivatives a))).exact := by
          rw [scheme.form_ofScale hσ hsecond]
      _ = _ := by
          rw [Coordinates.hessian_exact, ← scheme.hessian_of_above ha.1]
          rfl
  · have hamounts : ⇑(P.scaled σ).amounts = σ • ⇑P.amounts := Vec.get_of _
    rw [hpoint, (P.affine_optimum scheme).constraint_eq,
      ((P.scaled σ).affine_optimum scheme).constraint_eq, Mat.mulVec_ofReal, hamounts]
    have hscale : (fun i => σ * a i) = σ • a := rfl
    simp only [Coordinates.ofScale, Units.val_one, smul_mulVec, one_mulVec, hscale, mulVec_smul,
      smul_sub]
    rfl
  · rw [(P.affine_optimum scheme).jacobian_eq, ((P.scaled σ).affine_optimum scheme).jacobian_eq]
    simp only [Coordinates.ofScale, Mat.map_reorder_ofReal, Equiv.Perm.coe_one, submatrix_id_id,
      Units.val_one, Mat.mul_ofReal, Matrix.one_mul]
    rfl

/-- **Scaling the system scales the run.**  Whatever the phases, the pressure, the choice of second
derivatives and the options, solvers answer a run on `σ` times the element amounts, from `σ` times the
amounts and with `σ` times the barrier parameter, that is the run on the problem at that scale. -/
theorem scaled_of_solve (scheme : Scheme) (w w' : Optimum.Newton Exact) {σ : ℝ} (hσ : 0 < σ)
    {o : Optimum.Options Exact} {c : Optimum.Settings Exact} (ho : o.check = .ok c)
    (hmux : 0 < o.mux) (s : Optimum.Start ℝ) :
    ∃ run v run' v' us us',
      w.solve (P.exact.optimum scheme) o s.exact = .ok (run, v) ∧
      w'.solve ((P.scaled σ).exact.optimum scheme) { o with mu := (σ : Exact) * o.mu }
        ({ s with x := s.x.map (σ * ·) } : Optimum.Start ℝ).exact = .ok (run', v') ∧
      run.Scaled (P.exact.optimum scheme) c us σ P.mixture.floor run'
        ((P.scaled σ).exact.optimum scheme) { c with mu := (σ : Exact) * c.mu } us' := by
  obtain ⟨run, v, run', v', us, us', hv, hv', hruns⟩ :=
    w.inCoordinates_of_solve w' (P.inCoordinates_scaled scheme hσ) ho hmux
      (s.sized_scale (n := n) (m := m) hσ)
  have hiterates : ∀ k, (∀ j < k, run.PairedAt run' (fun t t' => t.Above P.mixture.floor ∧
      t'.Above P.mixture.floor) j) → run.PairedAt run' (fun t t' => ∃ u, t.Corresponds t'
        (P.exact.optimum scheme) ((P.scaled σ).exact.optimum scheme) (.ofScale n m hσ) u) k := by
    intro k hk
    refine hruns.pairedAt k fun j hj hpaired t t' ht ht' => ?_
    obtain ⟨u, hu⟩ := hpaired t t' ht ht'
    obtain ⟨ha, ha'⟩ := hk j hj t t' ht ht'
    exact ⟨u, hu, hu.above ha ha'⟩
  refine ⟨run, v, run', v', us, us', hv, hv', hruns.allUpdates, hruns.allUpdates', ?_, ?_⟩
  · intro k hk t t' ht ht'
    obtain ⟨u, hu⟩ := hiterates k hk t t' ht ht'
    exact hu.scaled
  · intro k hk
    refine hruns.stepsAlike k fun t t' ht ht' => ?_
    obtain ⟨u, hu⟩ := hiterates k (fun j hj => hk j hj.le) t t' ht ht'
    obtain ⟨ha, ha'⟩ := hk k le_rfl t t' ht ht'
    exact ⟨u, hu, hu.above ha ha'⟩

/-- Twice as much of the isomers, from a start with bound multipliers missing. -/
theorem scaled_of_solve_isomers :
    ∃ c, (0 : ℝ) < 2 ∧ (Optimum.Options.default : Optimum.Options Exact).check = .ok c ∧
      0 < (Optimum.Options.default : Optimum.Options Exact).mux ∧
      ∃ run v run' v' us us',
        ({} : Optimum.Newton Exact).solve (isomers.exact.optimum .exact) .default
          (Optimum.Start.exact { x := [1, 3] }) = .ok (run, v) ∧
        ({} : Optimum.Newton Exact).solve ((isomers.scaled 2).exact.optimum .exact)
          { (Optimum.Options.default : Optimum.Options Exact) with
            mu := ((2 : ℝ) : Exact) * Optimum.Options.default.mu }
          (Optimum.Start.exact { x := [1, 3].map (2 * ·) }) = .ok (run', v') ∧
        run.Scaled (isomers.exact.optimum .exact) c us 2 isomers.mixture.floor run'
          ((isomers.scaled 2).exact.optimum .exact) { c with mu := ((2 : ℝ) : Exact) * c.mu } us' := by
  obtain ⟨c, hc⟩ := Optimum.Options.exists_check_default
  exact ⟨c, two_pos, hc, Optimum.Options.mux_default_pos,
    scaled_of_solve isomers .exact {} {} two_pos hc Optimum.Options.mux_default_pos { x := [1, 3] }⟩

end MixtureProblem

end Equilibrium

end GibbsNewton
