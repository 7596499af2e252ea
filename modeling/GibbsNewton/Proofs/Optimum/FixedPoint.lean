import GibbsNewton.Proofs.Optimum.Resumed

/-!
# Fixed points of the iteration

A run aims at a central point: one where the gradient is met by the multipliers, the constraints hold and
every product of a variable and its bound multiplier is the barrier parameter.  At the central points the
Newton direction is zero, and so nothing moves.  They are also the only points at which nothing moves:
the Newton system is invertible, so another point has a direction that is not zero, and the lengths of a
step from the interior are positive, so this direction leads away.  By which method the system is solved,
in which form the second derivatives enter and whether the step has one common length does not matter.

## Main definitions

* `Iterate.Central` — an iterate is a central point.

## Main results

* `Problem.exists_direction` — where a system can be factored a direction is found.
* `Problem.stays_iff_central` — **the fixed points of the iteration are the central points**, and a run
  that starts in one has converged.
-/

namespace GibbsNewton.Optimum

open Matrix

variable {n m : ℕ}

/-! ### Central points -/

/-- A central point, for the gradient `g`, the constraint values `h` and the Jacobian `A` there. -/
structure Iterate.Central (u : Iterate ℝ n m) (g : Fin n → ℝ) (h : Fin m → ℝ)
    (A : Matrix (Fin m) (Fin n) ℝ) (mu : ℝ) : Prop where
  stationary : g = Aᵀ *ᵥ ⇑u.y + ⇑u.z
  feasible : h = 0
  centered : ∀ i, u.x i * u.z i = mu

variable {u : Iterate ℝ n m} {g : Fin n → ℝ} {h : Fin m → ℝ} {A : Matrix (Fin m) (Fin n) ℝ} {mu : ℝ}

/-- At central points, and only there, the right-hand side of the Newton system is zero. -/
theorem Iterate.rhs_eq_zero_iff :
    (⇑(u.rhs g h A mu).rx = 0 ∧ ⇑(u.rhs g h A mu).ry = 0 ∧ ⇑(u.rhs g h A mu).rz = 0) ↔
      u.Central g h A mu := by
  have hstationary : -(g - Aᵀ *ᵥ ⇑u.y - ⇑u.z) = 0 ↔ g = Aᵀ *ᵥ ⇑u.y + ⇑u.z := by
    rw [neg_eq_zero, sub_sub, sub_eq_zero]
  have hcentered : (-fun i => u.x i * u.z i - mu) = 0 ↔ ∀ i, u.x i * u.z i = mu := by
    rw [neg_eq_zero, funext_iff]
    exact forall_congr' fun i => sub_eq_zero
  simp only [rhs, Vec.get_of]
  rw [hstationary, neg_eq_zero, hcentered]
  constructor
  · rintro ⟨hs, hf, hc⟩
    exact ⟨hs, hf, hc⟩
  · rintro ⟨hs, hf, hc⟩
    exact ⟨hs, hf, hc⟩

variable {s : State Exact n m}

/-- No residual is left at a central point. -/
theorem Iterate.Central.solved (hu : u.Central g h A mu) (hs : s.IsAt u) (hreal : s.RealValues g h A) :
    s.Solved mu where
  lagrangian_eq := by
    rw [hs.lagrangian_eq hreal.gradient_eq hreal.jacobian_eq, sub_sub, hu.stationary, sub_self]
  constraint_eq := by rw [hreal.constraint_eq, hu.feasible]
  complementarity_eq := by
    rw [hs.complementarity_eq]
    congr 1
    funext i
    exact sub_eq_zero.mpr (hu.centered i)

/-! ### Steps from a state -/

variable {p : Problem Exact n m} {c : Settings Exact} {kkt : Kkt.Solver Exact} {H : Hessian ℝ n}

/-- Where a system of real data can be factored a direction is found, the solution of the Newton
equations. -/
theorem Problem.exists_direction (hmu : c.mu = mu) (hk : kkt.method = c.method) (hs : s.IsAt u)
    (hreal : s.RealData p c.scheme H g h A)
    (hfactored : (kkt.decompose (s.system p c.scheme)).succeeded = true) :
    ∃ e : Kkt.Direction ℝ n m, (p.direction? c kkt s).1 = some e.exact ∧ p.newton? c s ≠ none ∧
      IsUnit (u.system H A).blockMatrix ∧ (u.system H A).Solves e (u.rhs g h A mu) := by
  have hx : ∀ i, (u.system H A).x i ≠ 0 := fun i => (hs.x_pos i).ne'
  have hfactors : ((u.system H A).exact.factor kkt.method).isSome = true := by
    rw [← hreal.system_eq hs]
    exact hfactored
  obtain ⟨hunit, hcurvature⟩ := (Kkt.System.isSome_factor_iff hx kkt.method).mp hfactors
  obtain ⟨e, he, hsolves⟩ := Kkt.Solver.direction?_exact hx (u.rhs g h A mu) hunit hcurvature
  have hfound : (p.direction? c kkt s).1 = some e.exact := by
    rw [← he, ← hreal.system_eq hs, ← hreal.rhs_eq hs, ← hmu]
    rfl
  refine ⟨e, hfound, ?_, hunit, hsolves⟩
  rw [← p.direction?_fst c hk s, hfound]
  exact Option.some_ne_none _

/-- **The fixed points of the iteration are the central points.**  At a state in the interior with its own
real values, where the solver can factor the Newton system, there is a direction, and the step along it
leads nowhere exactly when the point is central.  Then a run that starts there, with variables that keep to
the bound on starts, has converged in its first iteration without having moved. -/
theorem Problem.stays_iff_central {tau : ℝ} (hmu : c.mu = mu) (htau : c.tau = tau) (hpos : 0 < tau)
    (hk : kkt.method = c.method) (hs : s.IsAt u) (hvalues : s.values = p.evaluate s.x)
    (hreal : s.RealData p c.scheme H g h A)
    (hfactored : (kkt.decompose (s.system p c.scheme)).succeeded = true) :
    (∃ d, (p.direction? c kkt s).1 = some d ∧
      (s.step d (s.lengths d c.tau) c.uniform = s.toIterate ↔ u.Central g h A mu)) ∧
    (u.Central g h A mu → Scalar.isFinite s.values.objective = true →
      ∀ (w : Newton Exact) (o : Options Exact), o.check = .ok c → 0 < o.tolerance →
        ∀ mux : ℝ, o.mux = mux → (∀ i, mux * mu ≤ u.x i) →
          ∃ run w', w.solve p o u.toStart.exact = .ok (run, w') ∧ run.ConvergedAt s) := by
  obtain ⟨e, hfound, hnewton, hunit, hsolves⟩ := Problem.exists_direction hmu hk hs hreal hfactored
  constructor
  · refine ⟨e.exact, hfound, ?_⟩
    rw [htau, hs.step_eq_self_iff e hpos, hsolves.eq_zero_iff hunit, Iterate.rhs_eq_zero_iff]
  · intro hcentral hobjective w o ho htol mux hmux hx
    have homu : o.mu = mu := (Options.accepted_of_check ho).mu_eq.symm.trans hmu
    have hstart : (u.toStart.exact.iterate o.mu o.mux n m).evaluate p = s := by
      rw [homu, hmux, u.iterate_toStart hs.z_pos hx, ← hs.iterate_eq]
      exact State.evaluate_toIterate hvalues
    have hsolved : s.Solved o.mu := homu ▸ hcentral.solved hs hreal.toRealValues
    exact w.convergedAt_of_isAt p ho htol hstart hs hsolved
      (hreal.toRealValues.isFinite hobjective) hnewton

/-- The central point of a slope. -/
noncomputable def slopeFoot : Iterate ℝ 1 0 := ⟨Vec.of fun _ => 1e-20, Vec.of 0, Vec.of 1⟩

/-- A step from the foot of a slope leads nowhere and one from the top leads away; a run from the foot
has converged. -/
theorem Problem.stays_iff_central_slope :
    ∃ c, (Options.default : Options Exact).check = .ok c ∧
      (∃ d, (slope.direction? c (.new c.method) (slopeFoot.exact.evaluate slope)).1 = some d ∧
        slopeFoot.exact.step d (slopeFoot.exact.lengths d c.tau) c.uniform = slopeFoot.exact) ∧
      (∃ d, (slope.direction? c (.new c.method) (slopeTop.exact.evaluate slope)).1 = some d ∧
        slopeTop.exact.step d (slopeTop.exact.lengths d c.tau) c.uniform ≠ slopeTop.exact) ∧
      ∃ run w', ({} : Newton Exact).solve slope .default slopeFoot.toStart.exact = .ok (run, w') ∧
        run.ConvergedAt (slopeFoot.exact.evaluate slope) := by
  obtain ⟨c, hc⟩ := Options.exists_check_default
  have hacc := Options.accepted_of_check hc
  obtain ⟨hscheme, hmethod⟩ := Options.choices_of_check_default hc
  have hmu := hacc.mu_eq.trans Options.mu_default
  have htau := hacc.tau_eq.trans Options.tau_default
  have hreal : ∀ u : Iterate ℝ 1 0,
      (u.exact.evaluate slope).RealData slope c.scheme (.dense (Mat.ofMatrix 0)) 1 0 0 := fun u => by
    rw [hscheme]
    exact realData_slope rfl
  have hfactored : ∀ {u : Iterate ℝ 1 0} (hu : (u.exact.evaluate slope).IsAt u),
      ((Kkt.Solver.new c.method).decompose
        ((u.exact.evaluate slope).system slope c.scheme)).succeeded = true := fun {u} hu => by
    rw [(hreal u).system_eq hu]
    exact (Kkt.System.isSome_factor_iff (fun i => (hu.x_pos i).ne') _).mpr
      ⟨isUnit_system_slope hu.x_pos hu.z_pos, by rw [hmethod]; exact nofun⟩
  have hfoot : (slopeFoot.exact.evaluate slope).IsAt slopeFoot :=
    ⟨rfl, fun i => by norm_num [slopeFoot], fun i => by simp [slopeFoot]⟩
  have htop : (slopeTop.exact.evaluate slope).IsAt slopeTop :=
    ⟨rfl, fun i => by simp [slopeTop], fun i => by simp [slopeTop]⟩
  have hcentral : slopeFoot.Central 1 0 0 (1 / 10 ^ 20) :=
    ⟨by simp [slopeFoot], rfl, fun i => by norm_num [slopeFoot]⟩
  have hother : ¬slopeTop.Central 1 0 0 (1 / 10 ^ 20) := fun h => by
    have hproduct := h.centered 0
    norm_num [slopeTop] at hproduct
  obtain ⟨⟨d, hd, hstays⟩, hrun⟩ := stays_iff_central hmu htau (by norm_num) rfl hfoot rfl (hreal _)
    (hfactored hfoot)
  obtain ⟨⟨e, he, hleaves⟩, -⟩ := stays_iff_central hmu htau (by norm_num) rfl htop rfl (hreal _)
    (hfactored htop)
  refine ⟨c, hc, ⟨d, hd, hstays.mpr hcentral⟩, ⟨e, he, fun h => hother (hleaves.mp h)⟩, ?_⟩
  exact hrun hcentral rfl {} .default hc Options.tolerance_default_pos _ Options.mux_default
    fun i => by norm_num [slopeFoot]

end GibbsNewton.Optimum
