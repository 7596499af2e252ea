import GibbsNewton.Proofs.Optimum.Coordinates
import GibbsNewton.Proofs.Optimum.Gap
import Mathlib.LinearAlgebra.Matrix.Permutation

/-!
# The order of the variables and the basis of the constraints

A problem may list its variables in another order and replace its constraints by combinations of them
with the same zeros.  The factorisations then meet other pivots, other columns and other orthogonal
factors, but the runs are the same in the new coordinates.  How far a state is from optimal is measured
entry by entry, and so two runs end alike when the constraints are merely listed in another order; with
other combinations the residual of the constraints is another number, and a run may go on longer.

## Main definitions

* `Problem.reordered`, `Iterate.reordered` — a problem and an iterate in another order and basis.

## Main results

* `Problem.inCoordinates_reordered` — the functions of the reordered problem.
* `Vec.normInf_ofReal_perm` — the largest entry does not depend on the order of the entries.
* `Newton.reordered_of_solve` — **a run does not depend on the order of the variables and the basis of
  the constraints.**
-/

namespace GibbsNewton

open Matrix

variable {n m : ℕ}

/-- The largest entry does not depend on the order of the entries. -/
theorem Vec.normInf_ofReal_perm (v : Fin n → ℝ) (e : Equiv.Perm (Fin n)) :
    (ofReal fun i => v (e i)).normInf = (ofReal v).normInf := by
  obtain ⟨a, ha⟩ := Exact.isFinite_iff.mp
    ((isFinite_normInf (ofReal fun i => v (e i))).trans (isFinite_ofReal _))
  obtain ⟨b, hb⟩ := Exact.isFinite_iff.mp ((isFinite_normInf (ofReal v)).trans (isFinite_ofReal v))
  rw [ha, hb, Exact.coe_inj]
  apply eq_of_forall_gt_iff
  intro t
  rw [← Exact.coe_lt_coe, ← Exact.coe_lt_coe, ← ha, ← hb, normInf_ofReal_lt_iff,
    normInf_ofReal_lt_iff, e.forall_congr_right (q := fun i => |v i| < t)]

/-- The coordinates that keep the unit of the variables. -/
def Coordinates.ofOrder (order : Equiv.Perm (Fin n)) (basis : (Matrix (Fin m) (Fin m) ℝ)ˣ) :
    Coordinates n m where
  scale := 1
  scale_pos := one_pos
  order := order
  basis := basis

namespace Optimum

/-! ### Problems and iterates -/

/-- A problem with its variables in another order and its constraints in another basis: with the
permutation `P` and the invertible matrix `M` its functions are `f (Pᵀ x)`, `P g`, `P H Pᵀ`, `M h` and
`M A Pᵀ`. -/
noncomputable def Problem.reordered (p : Problem Exact n m) (order : Equiv.Perm (Fin n))
    (basis : (Matrix (Fin m) (Fin m) ℝ)ˣ) : Problem Exact n m where
  objective x := p.objective (x.reorder order.symm)
  gradient x := (p.gradient (x.reorder order.symm)).reorder order
  hessian x g := (p.hessian (x.reorder order.symm) (g.reorder order.symm)).reorder order
  constraint x :=
    (Mat.ofReal (↑basis : Matrix (Fin m) (Fin m) ℝ)).mulVec (p.constraint (x.reorder order.symm))
  jacobian x :=
    (Mat.ofReal (↑basis : Matrix (Fin m) (Fin m) ℝ)).mul
      ((p.jacobian (x.reorder order.symm)).map (Vec.reorder · order))

/-- An iterate with its variables in another order and with the multipliers that go with another basis
of the constraints: `P x`, `M⁻ᵀ y` and `P z`. -/
noncomputable def Iterate.reordered (u : Iterate ℝ n m) (order : Equiv.Perm (Fin n))
    (basis : (Matrix (Fin m) (Fin m) ℝ)ˣ) : Iterate ℝ n m where
  x := u.x.reorder order
  y := Vec.of ((↑basis⁻¹ : Matrix (Fin m) (Fin m) ℝ)ᵀ *ᵥ ⇑u.y)
  z := u.z.reorder order

variable (order : Equiv.Perm (Fin n)) (basis : (Matrix (Fin m) (Fin m) ℝ)ˣ)

theorem Iterate.inCoordinates_ofOrder (u : Iterate ℝ n m) :
    u.inCoordinates (.ofOrder order basis) = u.reordered order basis := by
  have hprimal : Vec.of ((Coordinates.ofOrder order basis).primal ⇑u.x) = u.x.reorder order := by
    apply Vec.ext
    intro i
    simp [Coordinates.ofOrder]
  unfold inCoordinates reordered
  rw [hprimal]
  rfl

/-- The start that goes on from an iterate is read as this iterate. -/
theorem Iterate.sized_toStart (u : Iterate ℝ n m) : u.toStart.sized n m = u := by
  simp only [toStart, Start.sized, Vec.ofList?_toList, Option.getD_some]

/-- **The functions of the reordered problem** are those of the problem in other coordinates. -/
theorem Problem.inCoordinates_reordered (p : Problem Exact n m) :
    p.InCoordinates (p.reordered order basis) (.ofOrder order basis) Set.univ := by
  have hpoint : ∀ x : Fin n → ℝ, (Vec.ofReal ((Coordinates.ofOrder order basis).primal x)).reorder
      order.symm = Vec.ofReal x := by
    intro x
    apply Vec.ext
    intro i
    simp [Coordinates.ofOrder]
  refine ⟨fun x _ => ?_, fun x _ g => ?_, fun x _ => ?_, fun x _ => ?_⟩
  · simp only [reordered, hpoint]
    rfl
  · have hone : ∀ H : Hessian Exact n, H.map (· / ((1 : ℝ) : Exact)) = H := by
      intro H
      cases H with
      | diagonal d => exact congrArg _ (Vec.ext fun i => by simp [Exact.div_one])
      | dense M => exact congrArg _ (Mat.ext_apply fun i j => by simp [Exact.div_one])
    simp only [reordered, hpoint]
    simp only [Coordinates.ofOrder, Vec.reorder_reorder_symm, hone]
  · simp only [reordered, hpoint]
    simp only [Coordinates.ofOrder, one_smul]
  · simp only [reordered, hpoint]
    rfl

/-! ### Testing -/

section

variable {p : Problem Exact n m} {order basis} {t t' : State Exact n m} {u : Iterate ℝ n m}

/-- The values at corresponding states are finite or not alike. -/
theorem State.Corresponds.isFinite_values
    (h : t.Corresponds t' p (p.reordered order basis) (.ofOrder order basis) u) :
    t'.values.isFinite = t.values.isFinite := by
  have hx : t'.x.reorder order.symm = t.x := by
    rw [h.isAt'.x_eq, Iterate.inCoordinates_ofOrder, h.isAt.x_eq]
    apply Vec.ext
    intro i
    simp [Iterate.reordered]
  have hobjective : t'.values.objective = t.values.objective := by
    rw [h.values_eq, h.values_eq', ← hx]
    rfl
  have hp := p.inCoordinates_reordered order basis
  rw [Evaluation.isFinite, Evaluation.isFinite, hobjective,
    hp.gradient_corresponds h (Set.mem_univ _), hp.constraint_corresponds h (Set.mem_univ _),
    hp.jacobian_corresponds h (Set.mem_univ _), Vec.isFinite_reorder, Mat.isFinite_mulVec_ofReal,
    Mat.isFinite_mul_ofReal]

/-- With the constraints in another order, corresponding states are as far from optimal. -/
theorem State.Corresponds.residuals_eq
    (h : t.Corresponds t' p (p.reordered order basis) (.ofOrder order basis) u)
    {ρ : Equiv.Perm (Fin m)} (hρ : (↑basis : Matrix (Fin m) (Fin m) ℝ) = ρ.permMatrix ℝ)
    (hfinite : t.values.isFinite = true) (mu : ℝ) :
    t'.residuals mu = t.residuals mu := by
  simp only [Evaluation.isFinite, Bool.and_eq_true] at hfinite
  obtain ⟨⟨⟨-, hgradient⟩, hconstraint⟩, hjacobian⟩ := hfinite
  obtain ⟨g, hg⟩ := Vec.isFinite_iff.mp hgradient
  obtain ⟨r, hr⟩ := Vec.isFinite_iff.mp hconstraint
  obtain ⟨A, hA⟩ := Mat.isFinite_iff.mp hjacobian
  set T := Coordinates.ofOrder order basis with hT
  have hreal' : t'.RealValues (T.dual g) (T.constraint r) (T.jacobian A) :=
    (p.inCoordinates_reordered order basis).realValues h (Set.mem_univ _) ⟨hg, hr, hA⟩
  have hlagrangian : t'.lagrangian = Vec.ofReal fun i => (g - Aᵀ *ᵥ ⇑u.y - ⇑u.z) (order i) := by
    rw [h.isAt'.lagrangian_eq hreal'.gradient_eq hreal'.jacobian_eq, Iterate.inCoordinates,
      Vec.get_of, Vec.get_of, T.transpose_jacobian_mulVec]
    rfl
  have hresidual : t'.values.constraint = Vec.ofReal fun i => r (ρ i) := by
    rw [hreal'.constraint_eq, T.constraint_apply]
    simp only [hT, Coordinates.ofOrder, one_smul, hρ, permMatrix_mulVec]
    rfl
  have hcentrality : t'.complementarity mu =
      Vec.ofReal fun i => u.x (order i) * u.z (order i) - mu := by
    rw [h.isAt'.complementarity_eq, Iterate.inCoordinates_ofOrder]
    simp [Iterate.reordered]
  unfold State.residuals
  rw [hlagrangian, hresidual, hcentrality, h.isAt.lagrangian_eq hg hA, hr,
    h.isAt.complementarity_eq, Vec.normInf_ofReal_perm, Vec.normInf_ofReal_perm]
  congr 1
  exact Vec.normInf_ofReal_perm (fun i => u.x i * u.z i - mu) order

end

/-! ### Runs -/

/-- The run `r'` goes through the iterates of `r` in another order and basis, and makes the same
steps. -/
structure Run.Reordered (r : Run Exact n m) (p : Problem Exact n m) (c : Settings Exact)
    (us : List (Update Exact n m)) (order : Equiv.Perm (Fin n))
    (basis : (Matrix (Fin m) (Fin m) ℝ)ˣ) (r' : Run Exact n m) (us' : List (Update Exact n m)) :
    Prop where
  allUpdates : r.AllUpdates p c us
  allUpdates' : r'.AllUpdates (p.reordered order basis) c us'
  iterates : ∀ k, r.PairedAt r' (fun t t' => ∃ u : Iterate ℝ n m,
    t.toIterate = u.exact ∧ t'.toIterate = (u.reordered order basis).exact) k
  stepsAlike : ∀ k, r.StepsAlike p c us r' (p.reordered order basis) c us' k

/-- **A run does not depend on the order of the variables and the basis of the constraints.**  Whatever
the functions of a problem and the options, solvers answer runs of the problem and of the reordered one
that correspond, and that end alike if the constraints are merely in another order. -/
theorem Newton.reordered_of_solve (w w' : Newton Exact) (p : Problem Exact n m)
    (order : Equiv.Perm (Fin n)) (basis : (Matrix (Fin m) (Fin m) ℝ)ˣ) {o : Options Exact}
    {c : Settings Exact} (ho : o.check = .ok c) (hmux : 0 < o.mux) (s : Start ℝ) :
    ∃ run v run' v' us us',
      w.solve p o s.exact = .ok (run, v) ∧
      w'.solve (p.reordered order basis) o
        ((s.sized n m).reordered order basis).toStart.exact = .ok (run', v') ∧
      run.Reordered p c us order basis run' us' ∧
      ∀ ρ : Equiv.Perm (Fin m), (↑basis : Matrix (Fin m) (Fin m) ℝ) = ρ.permMatrix ℝ →
        run.EndsAlike run' := by
  -- the unit is kept, and with it the barrier parameter
  have hunit : ∀ a : Exact, ((Coordinates.ofOrder order basis).scale : Exact) * a = a :=
    Exact.one_mul
  have hstart : (((s.sized n m).reordered order basis).toStart).sized n m =
      (s.sized n m).inCoordinates (.ofOrder order basis) := by
    rw [Iterate.sized_toStart, Iterate.inCoordinates_ofOrder]
  obtain ⟨run, v, run', v', us, us', hv, hv', hruns⟩ :=
    w.inCoordinates_of_solve w' (p.inCoordinates_reordered order basis) ho hmux hstart
  rw [hunit] at hv' hruns
  have hpaired : ∀ k, run.PairedAt run' (fun t t' => ∃ u, t.Corresponds t' p
      (p.reordered order basis) (.ofOrder order basis) u) k :=
    fun k => hruns.pairedAt k fun j _ hj t t' ht ht' => by
      obtain ⟨u, hu⟩ := hj t t' ht ht'
      exact ⟨u, hu, Set.mem_univ _⟩
  refine ⟨run, v, run', v', us, us', hv, hv',
    ⟨hruns.allUpdates, hruns.allUpdates', fun k t t' ht ht' => ?_, fun k => ?_⟩, fun ρ hρ => ?_⟩
  · obtain ⟨u, hu⟩ := hpaired k t t' ht ht'
    refine ⟨u, hu.isAt.iterate_eq, ?_⟩
    rw [hu.isAt'.iterate_eq, Iterate.inCoordinates_ofOrder]
  · refine hruns.stepsAlike k fun t t' ht ht' => ?_
    obtain ⟨u, hu⟩ := hpaired k t t' ht ht'
    exact ⟨u, hu, Set.mem_univ _⟩
  · obtain ⟨mu, -, hmu, -⟩ := (Options.accepted_of_check ho).exists_real
    refine hruns.endsAlike (fun _ _ _ ⟨u, hu⟩ => ⟨u, hu, Set.mem_univ _⟩) ⟨rfl, rfl, ?_, ?_⟩
    · rintro k t t' ⟨u, hu⟩
      exact hu.isFinite_values
    · rintro k t t' ⟨u, hu⟩ hfinite
      rw [hmu, hu.residuals_eq hρ hfinite]

/-- The run that shares out a whole, with the shares exchanged. -/
theorem Newton.reordered_of_solve_shares :
    ∃ c, (Options.default : Options Exact).check = .ok c ∧ 0 < (Options.default : Options Exact).mux ∧
      ∃ run v run' v' us us',
        ({} : Newton Exact).solve shares .default (Start.exact ⟨[1, 2], [3], [4, 5]⟩) = .ok (run, v) ∧
        ({} : Newton Exact).solve (shares.reordered (Equiv.swap 0 1) 1) .default
          (((Start.mk [1, 2] [3] [4, 5]).sized 2 1).reordered (Equiv.swap 0 1) 1).toStart.exact =
            .ok (run', v') ∧
        run.Reordered shares c us (Equiv.swap 0 1) 1 run' us' ∧ run.EndsAlike run' := by
  obtain ⟨c, hc⟩ := Options.exists_check_default
  obtain ⟨run, v, run', v', us, us', hv, hv', hruns, hends⟩ :=
    reordered_of_solve {} {} shares (Equiv.swap 0 1) 1 hc Options.mux_default_pos
      ⟨[1, 2], [3], [4, 5]⟩
  exact ⟨c, hc, Options.mux_default_pos, run, v, run', v', us, us', hv, hv', hruns,
    hends 1 (by rw [permMatrix_one, Units.val_one])⟩

end Optimum

end GibbsNewton
