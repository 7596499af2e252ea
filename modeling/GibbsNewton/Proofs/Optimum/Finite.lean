import GibbsNewton.Proofs.Kkt.Direction
import GibbsNewton.Proofs.Optimum.Course
import GibbsNewton.Proofs.Optimum.StepLength

/-!
# What a finite direction says about a state

A direction is accepted only when it is finite.  In exact arithmetic a result is finite only when
everything that went into it was, so that an accepted direction vouches for the variables and the
bound multipliers that the system was made of, and with them for the state that the step leads to.
The largest residual, in turn, vouches for the first one alone: it is below a bound together with
all three only when the other two are known to be finite.

## Main results

* `Problem.isFinite_of_newton?` — a direction that is gone is finite, and so is where it starts.
* `Problem.Follows.isFinite` — the variables and bound multipliers after a step are finite.
* `Residuals.worst_lt_iff` — the largest residual is below a bound exactly when all three are.
-/

namespace GibbsNewton

variable {n m : ℕ}

namespace Optimum

/-! ### Steps -/

namespace Problem

variable {p : Problem Exact n m} {c : Settings Exact} {s t : State Exact n m}

/-- A direction that the driver goes is finite, and so are the variables and the bound multipliers
that it goes from. -/
theorem isFinite_of_newton? {d : Kkt.Direction Exact n m} (h : p.newton? c s = some d) :
    d.isFinite = true ∧ s.x.isFinite = true ∧ s.z.isFinite = true := by
  unfold newton? direction? at h
  rw [Kkt.Solver.direction?_fst, Option.bind_eq_some_iff] at h
  obtain ⟨F, hF, h⟩ := h
  rw [Option.ite_none_right_eq_some] at h
  obtain ⟨hfin, hd⟩ := h
  obtain rfl := Option.some.inj hd
  have hdata := Kkt.System.finiteData_of_solve hF hfin
  exact ⟨hfin, hdata.x, hdata.z⟩

/-- A step is between finite variables and bound multipliers. -/
theorem Follows.isFinite (h : p.Follows c s t) (htau : Scalar.isFinite c.tau = true) :
    t.x.isFinite = true ∧ t.z.isFinite = true := by
  obtain ⟨d, hd, rfl⟩ := h
  obtain ⟨hfin, hsx, hsz⟩ := isFinite_of_newton? hd
  simp only [Kkt.Direction.isFinite, Bool.and_eq_true] at hfin
  obtain ⟨tau, htau⟩ := Exact.isFinite_iff.mp htau
  obtain ⟨x, hx⟩ := Vec.isFinite_iff.mp hsx
  obtain ⟨z, hz⟩ := Vec.isFinite_iff.mp hsz
  obtain ⟨dx, hdx⟩ := Vec.isFinite_iff.mp hfin.1.1
  obtain ⟨dz, hdz⟩ := Vec.isFinite_iff.mp hfin.2
  have hlengths : s.lengths d (tau : Exact) = _ := Iterate.lengths_ofReal hx hz hdx hdz
  unfold update Iterate.evaluate Iterate.step
  rw [htau, hlengths]
  cases c.uniform with
  | false => simp [hx, hz, hdx, hdz]
  | true => simp [hx, hz, hdx, hdz]

end Problem

/-! ### Residuals -/

/-- A largest residual below a bound has the first one finite, for otherwise it would be that one;
the other two it may leave out, unless they are finite. -/
theorem Residuals.worst_lt_iff {r : Residuals Exact} {tol : Exact}
    (hf : Scalar.isFinite r.feasibility = true) (hc : Scalar.isFinite r.centrality = true) :
    r.worst < tol ↔ r.stationarity < tol ∧ r.feasibility < tol ∧ r.centrality < tol := by
  obtain ⟨f, hf⟩ := Exact.isFinite_iff.mp hf
  obtain ⟨k, hk⟩ := Exact.isFinite_iff.mp hc
  unfold worst
  rw [hf, hk]
  cases hs : r.stationarity with
  | undefined =>
    have hfirst : ∀ b : ℝ, Scalar.firstMax Exact.undefined (b : Exact) = .undefined := fun b => rfl
    rw [hfirst, hfirst]
    exact ⟨fun h => absurd (Exact.isFinite_of_lt_left h) nofun,
      fun h => absurd (Exact.isFinite_of_lt_left h.1) nofun⟩
  | real a =>
    cases tol with
    | undefined =>
      exact ⟨fun h => absurd (Exact.isFinite_of_lt_right h) nofun,
        fun h => absurd (Exact.isFinite_of_lt_right h.1) nofun⟩
    | real b =>
      simp only [Exact.firstMax_coe, Exact.coe_lt_coe, max_lt_iff, and_assoc]

/-- The residual of the constraints is finite with their values. -/
theorem State.isFinite_feasibility {s : State Exact n m} (h : s.values.isFinite = true)
    (mu : Exact) : Scalar.isFinite (s.residuals mu).feasibility = true := by
  simp only [Evaluation.isFinite, Bool.and_eq_true] at h
  unfold residuals
  rw [Vec.isFinite_normInf]
  exact h.1.2

/-- The residual of the products is finite with the variables and the bound multipliers. -/
theorem State.isFinite_centrality {s : State Exact n m} {mu : Exact} (hx : s.x.isFinite = true)
    (hz : s.z.isFinite = true) (hmu : Scalar.isFinite mu = true) :
    Scalar.isFinite (s.residuals mu).centrality = true := by
  rw [Vec.isFinite_iff_forall] at hx hz
  unfold residuals complementarity
  rw [Vec.isFinite_normInf, Vec.isFinite_iff_forall]
  intro i
  rw [Vec.of_apply, Exact.isFinite_sub, Exact.isFinite_mul, hx i, hz i, hmu]
  rfl

end Optimum

end GibbsNewton
