import GibbsNewton.Proofs.Kkt.Definite
import GibbsNewton.Proofs.Optimum.Interior

/-!
# Runs over the reals

A run from a real start goes through states whose variables and multipliers are all real, with
positive variables and bound multipliers.  So beside the exact run there is a real one: at every state
there is a real iterate, a step is made along a real direction that solves the Newton equations, and
the lengths of the step are real.  Nothing is asked of the functions of the problem for this, because a
direction is accepted only when everything that went into it is finite.

Results about runs that are arithmetic in nature are stated of the real iterates from here on.

## Main definitions

* `Iterate.exact` — a real iterate read as exact values.
* `Iterate.reach`, `StepLengths.along`, `Iterate.moved` — the lengths of a real step, the one that the
  variables go, and the iterate that it leads to.
* `State.IsAt s u` — the iterate of the state `s` is the real one `u`, in the interior.
* `State.RealValues`, `State.RealData` — what a direction at a state is computed from is real.
* `Iterate.system`, `Iterate.rhs` — the Newton system at a real iterate, made of real data.
* `Run.OverReals` — a run that takes its course through such states.

## Main results

* `Iterate.reach_pos` — the lengths of a step from the interior are positive.
* `Start.exists_isAt` — a real start leads to a real state.
* `Problem.newton?_eq_some_iff`, `Problem.newton?_ne_none_iff` — when there is a direction at a real
  state, and which one.
* `Problem.newton?_ne_none_iff_row` — with nonnegative second derivatives there is one exactly when the
  rows of the Jacobian are independent.
* `Problem.exists_realData` — a direction is found only where all data are real.
* `Problem.Moves.exists_real` — **a step is made along the real solution of the Newton equations.**
* `Newton.overReals_of_solve` — **from a real start a run goes through real states.**
* `Run.OverReals.exists_states` — its states, real iterates and updates in order.
-/

namespace GibbsNewton

open Matrix

variable {n m : ℕ}

theorem Vec.neg_ofReal (v : Fin n → ℝ) : (Vec.ofReal v).map (-·) = Vec.ofReal (-v) := by
  apply Vec.ext
  intro i
  simp

namespace Optimum

/-! ### Real iterates -/

/-- A real iterate read as exact values. -/
def Iterate.exact (u : Iterate ℝ n m) : Iterate Exact n m where
  x := Vec.ofReal ⇑u.x
  y := Vec.ofReal ⇑u.y
  z := Vec.ofReal ⇑u.z

theorem Iterate.exact_inj {u v : Iterate ℝ n m} : u.exact = v.exact ↔ u = v := by
  constructor
  · intro h
    obtain ⟨x, y, z⟩ := u
    obtain ⟨x', y', z'⟩ := v
    obtain rfl := Vec.ofReal_get_inj.mp (congrArg Iterate.x h)
    obtain rfl := Vec.ofReal_get_inj.mp (congrArg Iterate.y h)
    obtain rfl := Vec.ofReal_get_inj.mp (congrArg Iterate.z h)
    rfl
  · rintro rfl
    rfl

/-- Real lengths read as exact values. -/
def StepLengths.exact (t : StepLengths ℝ) : StepLengths Exact where
  common := t.common
  primal := t.primal
  dual := t.dual

/-- The length that the variables go. -/
def StepLengths.along {α : Type} (t : StepLengths α) (uniform : Bool) : α :=
  if uniform then t.common else t.primal

/-- The lengths of a step from a real iterate along a real direction. -/
noncomputable def Iterate.reach (u : Iterate ℝ n m) (d : Kkt.Direction ℝ n m) (tau : ℝ) :
    StepLengths ℝ where
  common := min (boundaryFraction ⇑u.x ⇑d.dx tau) (boundaryFraction ⇑u.z ⇑d.dz tau)
  primal := boundaryFraction ⇑u.x ⇑d.dx tau
  dual := boundaryFraction ⇑u.z ⇑d.dz tau

/-- The iterate that a real step leads to. -/
noncomputable def Iterate.moved (u : Iterate ℝ n m) (d : Kkt.Direction ℝ n m) (t : StepLengths ℝ)
    (uniform : Bool) : Iterate ℝ n m where
  x := Vec.of (⇑u.x + t.along uniform • ⇑d.dx)
  y := Vec.of (⇑u.y + (if uniform then t.common else 1) • ⇑d.dy)
  z := Vec.of (⇑u.z + (if uniform then t.common else t.dual) • ⇑d.dz)

namespace Iterate

variable {u : Iterate ℝ n m} {d : Kkt.Direction ℝ n m} {tau : ℝ}

theorem lengths_exact (u : Iterate ℝ n m) (d : Kkt.Direction ℝ n m) (tau : ℝ) :
    u.exact.lengths d.exact tau = (u.reach d tau).exact :=
  lengths_ofReal rfl rfl rfl rfl

theorem step_exact (u : Iterate ℝ n m) (d : Kkt.Direction ℝ n m) (t : StepLengths ℝ)
    (uniform : Bool) : u.exact.step d.exact t.exact uniform = (u.moved d t uniform).exact := by
  cases uniform with
  | false => simp [step, exact, Kkt.Direction.exact, StepLengths.exact, moved, StepLengths.along]
  | true => simp [step, exact, Kkt.Direction.exact, StepLengths.exact, moved, StepLengths.along]

/-- All lengths of a step from the interior are positive. -/
theorem reach_pos (hx : ∀ i, 0 < u.x i) (hz : ∀ i, 0 < u.z i) (htau : 0 < tau) :
    0 < (u.reach d tau).common ∧ 0 < (u.reach d tau).primal ∧ 0 < (u.reach d tau).dual := by
  have hprimal : 0 < boundaryFraction ⇑u.x ⇑d.dx tau := boundaryFraction_pos hx htau
  have hdual : 0 < boundaryFraction ⇑u.z ⇑d.dz tau := boundaryFraction_pos hz htau
  exact ⟨lt_min hprimal hdual, hprimal, hdual⟩

/-- The variables go a positive part of the full step, at most all of it. -/
theorem along_reach (hx : ∀ i, 0 < u.x i) (hz : ∀ i, 0 < u.z i) (htau : 0 < tau)
    (uniform : Bool) :
    0 < (u.reach d tau).along uniform ∧ (u.reach d tau).along uniform ≤ 1 := by
  obtain ⟨hcommon, hprimal, -⟩ := reach_pos (d := d) hx hz htau
  have hle := boundaryFraction_le_one ⇑u.x ⇑d.dx tau
  cases uniform with
  | false => exact ⟨hprimal, hle⟩
  | true => exact ⟨hcommon, (min_le_left _ _).trans hle⟩

end Iterate

/-! ### Real states -/

/-- The iterate of a state is a real one, in the interior. -/
structure State.IsAt (s : State Exact n m) (u : Iterate ℝ n m) : Prop where
  iterate_eq : s.toIterate = u.exact
  x_pos : ∀ i, 0 < u.x i
  z_pos : ∀ i, 0 < u.z i

namespace State.IsAt

variable {s : State Exact n m} {u : Iterate ℝ n m}

theorem x_eq (h : s.IsAt u) : s.x = Vec.ofReal ⇑u.x := congrArg Iterate.x h.iterate_eq

theorem y_eq (h : s.IsAt u) : s.y = Vec.ofReal ⇑u.y := congrArg Iterate.y h.iterate_eq

theorem z_eq (h : s.IsAt u) : s.z = Vec.ofReal ⇑u.z := congrArg Iterate.z h.iterate_eq

theorem interior (h : s.IsAt u) : s.Interior where
  x_pos i := by simpa [h.x_eq] using h.x_pos i
  z_pos i := by simpa [h.z_eq] using h.z_pos i

/-- An interior state with real constraint multipliers is at a real iterate. -/
theorem of_interior {s : State Exact n m} (h : s.Interior) {y : Fin m → ℝ}
    (hy : s.y = Vec.ofReal y) : ∃ u, s.IsAt u := by
  obtain ⟨x, hx, hxpos⟩ := exists_ofReal_of_pos h.x_pos
  obtain ⟨z, hz, hzpos⟩ := exists_ofReal_of_pos h.z_pos
  refine ⟨⟨Vec.of x, Vec.of y, Vec.of z⟩, ?_, by simpa using hxpos, by simpa using hzpos⟩
  obtain ⟨⟨sx, sy, sz⟩, values⟩ := s
  simp_all [Iterate.exact]

/-- With a real gradient and Jacobian the gradient of the Lagrangian is real. -/
theorem lagrangian_eq (h : s.IsAt u) {g : Fin n → ℝ} (hg : s.values.gradient = Vec.ofReal g)
    {A : Matrix (Fin m) (Fin n) ℝ} (hA : s.values.jacobian = Mat.ofReal A) :
    s.lagrangian = Vec.ofReal (g - Aᵀ *ᵥ ⇑u.y - ⇑u.z) := by
  rw [lagrangian, hg, hA, h.y_eq, h.z_eq, Mat.transposeMulVec_ofReal, Vec.sub_ofReal, Vec.sub_ofReal]

theorem complementarity_eq (h : s.IsAt u) (mu : ℝ) :
    s.complementarity mu = Vec.ofReal fun i => u.x i * u.z i - mu := by
  apply Vec.ext
  intro i
  simp [complementarity, h.x_eq, h.z_eq]

end State.IsAt

/-- A real start leads to a real state. -/
theorem Start.exists_isAt (s : Start ℝ) {mu mux : Exact} (hmu : 0 < mu) (hmux : 0 < mux)
    (p : Problem Exact n m) : ∃ u, ((s.exact.iterate mu mux n m).evaluate p).IsAt u := by
  have hreal : ∀ i, ∃ r : ℝ, Vec.sized m s.exact.y i = r :=
    Vec.forall_sized (P := fun a : Exact => ∃ r : ℝ, a = r) ⟨0, Exact.zero_eq⟩ (by simp [exact])
  choose y hy using hreal
  refine State.IsAt.of_interior (s.interior_iterate hmu hmux) (y := y) ?_
  apply Vec.ext
  intro i
  rw [Vec.ofReal_apply, ← hy i]
  rfl

/-! ### The data of a step -/

/-- The values at a state are real. -/
structure State.RealValues (s : State Exact n m) (g : Fin n → ℝ) (h : Fin m → ℝ)
    (A : Matrix (Fin m) (Fin n) ℝ) : Prop where
  gradient_eq : s.values.gradient = Vec.ofReal g
  constraint_eq : s.values.constraint = Vec.ofReal h
  jacobian_eq : s.values.jacobian = Mat.ofReal A

/-- All that a Newton direction at a state is computed from is real. -/
structure State.RealData (s : State Exact n m) (p : Problem Exact n m) (scheme : HessianScheme)
    (H : Hessian ℝ n) (g : Fin n → ℝ) (h : Fin m → ℝ) (A : Matrix (Fin m) (Fin n) ℝ) : Prop
    extends s.RealValues g h A where
  hessian_eq : scheme.apply (p.hessian s.x s.values.gradient) = H.exact

/-- The Newton system at a real iterate with real second derivatives and a real Jacobian. -/
def Iterate.system (u : Iterate ℝ n m) (H : Hessian ℝ n) (A : Matrix (Fin m) (Fin n) ℝ) :
    Kkt.System ℝ n m where
  hessian := H
  jacobian := Mat.ofMatrix A
  x := u.x
  z := u.z

/-- Its right-hand side. -/
noncomputable def Iterate.rhs (u : Iterate ℝ n m) (g : Fin n → ℝ) (h : Fin m → ℝ)
    (A : Matrix (Fin m) (Fin n) ℝ) (mu : ℝ) : Kkt.Rhs ℝ n m where
  rx := Vec.of (-(g - Aᵀ *ᵥ ⇑u.y - ⇑u.z))
  ry := Vec.of (-h)
  rz := Vec.of (-fun i => u.x i * u.z i - mu)

section

variable {s : State Exact n m} {u : Iterate ℝ n m} {p : Problem Exact n m} {scheme : HessianScheme}
  {H : Hessian ℝ n} {g : Fin n → ℝ} {h : Fin m → ℝ} {A : Matrix (Fin m) (Fin n) ℝ}

theorem State.RealData.system_eq (hreal : s.RealData p scheme H g h A) (hs : s.IsAt u) :
    s.system p scheme = (u.system H A).exact := by
  rw [State.system, hreal.hessian_eq, hreal.jacobian_eq, hs.x_eq, hs.z_eq, Kkt.System.exact,
    Iterate.system, Mat.toMatrix_ofMatrix]

theorem State.RealValues.rhs_eq (hreal : s.RealValues g h A) (hs : s.IsAt u) (mu : ℝ) :
    s.rhs mu = (u.rhs g h A mu).exact := by
  rw [State.rhs, hs.lagrangian_eq hreal.gradient_eq hreal.jacobian_eq, hreal.constraint_eq,
    hs.complementarity_eq, Vec.neg_ofReal, Vec.neg_ofReal, Vec.neg_ofReal, Kkt.Rhs.exact,
    Iterate.rhs, Vec.get_of, Vec.get_of, Vec.get_of]

/-- The values are finite if the objective is. -/
theorem State.RealValues.isFinite (hreal : s.RealValues g h A)
    (hobjective : Scalar.isFinite s.values.objective = true) : s.values.isFinite = true := by
  rw [Evaluation.isFinite, hobjective, hreal.gradient_eq, hreal.constraint_eq, hreal.jacobian_eq]
  simp

end

/-! ### Steps between real states -/

namespace Problem

variable {p : Problem Exact n m} {c : Settings Exact} {s t : State Exact n m}
  {u : Iterate ℝ n m}

/-- A direction at a real state solves the Newton equations of a real system. -/
theorem newton?_eq_some_iff (hs : s.IsAt u) {d : Kkt.Direction Exact n m} :
    p.newton? c s = some d ↔
      ∃ (K : Kkt.System ℝ n m) (q : Kkt.Rhs ℝ n m) (e : Kkt.Direction ℝ n m),
        s.system p c.scheme = K.exact ∧ s.rhs c.mu = q.exact ∧ d = e.exact ∧
          IsUnit K.blockMatrix ∧ (c.method = .rangespace → IsUnit K.curvatureMatrix) ∧
            K.Solves e q :=
  Kkt.Solver.direction?_eq_some_iff hs.interior.x_pos

/-- A direction is found only where all data are real. -/
theorem exists_realData (hs : s.IsAt u) (hfound : p.newton? c s ≠ none) :
    ∃ H g h A, s.RealData p c.scheme H g h A := by
  obtain ⟨d, hd⟩ := Option.ne_none_iff_exists'.mp hfound
  obtain ⟨K, q, -, hK, hq, -⟩ := (newton?_eq_some_iff hs).mp hd
  have hneg : ∀ {k} {v : Vec Exact k} {w : Vec ℝ k}, v.map (-·) = Vec.ofReal ⇑w →
      v.isFinite = true := by
    intro k v w hvw
    have hfinite : (v.map (-·)).isFinite = true := by rw [hvw, Vec.isFinite_ofReal]
    rw [Vec.isFinite_iff_forall] at hfinite ⊢
    simpa using hfinite
  have hlagrangian : s.lagrangian.isFinite = true := hneg (congrArg Kkt.Rhs.rx hq)
  obtain ⟨g, hg⟩ := Vec.isFinite_iff.mp (Vec.isFinite_of_sub (Vec.isFinite_of_sub hlagrangian).1).1
  obtain ⟨h, hh⟩ := Vec.isFinite_iff.mp (hneg (congrArg Kkt.Rhs.ry hq))
  exact ⟨K.hessian, g, h, K.jacobian.toMatrix, ⟨hg, hh, congrArg Kkt.System.jacobian hK⟩,
    congrArg Kkt.System.hessian hK⟩

/-- Where the system and the right-hand side are real, there is a direction when the system is
invertible and, for the range-space method, the curvature is too. -/
theorem newton?_ne_none_iff (hs : s.IsAt u) {K : Kkt.System ℝ n m} {q : Kkt.Rhs ℝ n m}
    (hK : s.system p c.scheme = K.exact) (hq : s.rhs c.mu = q.exact) :
    p.newton? c s ≠ none ↔
      IsUnit K.blockMatrix ∧ (c.method = .rangespace → IsUnit K.curvatureMatrix) := by
  have hx : ∀ i, K.x i ≠ 0 := by
    apply Kkt.System.x_ne_zero_of_exact
    rw [← hK]
    exact hs.interior.x_pos
  have hdir : p.newton? c s = ((Kkt.Solver.new c.method).direction? K.exact q.exact).1 := by
    rw [← hK, ← hq]
    rfl
  constructor
  · intro h
    by_contra hnot
    exact h (hdir.trans (Kkt.Solver.direction?_exact_eq_none hx q hnot))
  · rintro ⟨hunit, hcurvature⟩
    obtain ⟨e, he, -⟩ := Kkt.Solver.direction?_exact (k := .new c.method) hx q hunit hcurvature
    rw [hdir, he]
    exact Option.some_ne_none _

/-- **With nonnegative second derivatives there is a direction exactly when the rows of the Jacobian are
independent**, whatever the method. -/
theorem newton?_ne_none_iff_row (hs : s.IsAt u) {mu : ℝ} (hmu : c.mu = mu) {H : Hessian ℝ n}
    {g : Fin n → ℝ} {h : Fin m → ℝ} {A : Matrix (Fin m) (Fin n) ℝ}
    (hreal : s.RealData p c.scheme H g h A) (hH : H.Nonneg) :
    p.newton? c s ≠ none ↔ LinearIndependent ℝ A.row := by
  have hrhs := hreal.rhs_eq hs mu
  rw [← hmu] at hrhs
  have hx : ∀ i, 0 < (u.system H A).x i := hs.x_pos
  have hz : ∀ i, 0 < (u.system H A).z i := hs.z_pos
  have hjacobian : (u.system H A).jacobian.toMatrix = A := Mat.toMatrix_ofMatrix A
  have hcurvature : IsUnit (u.system H A).curvatureMatrix :=
    Kkt.System.isUnit_curvatureMatrix hx hz hH
  rw [newton?_ne_none_iff hs (hreal.system_eq hs) hrhs,
    Kkt.System.isUnit_blockMatrix_iff_row hx hz hH, hjacobian]
  exact and_iff_left fun _ => hcurvature

/-- The direction of a move is the one that solves the equations. -/
theorem Moves.eq_update {v : Update Exact n m} (h : p.Moves c s v) (hs : s.IsAt u)
    {K : Kkt.System ℝ n m} {q : Kkt.Rhs ℝ n m} {d : Kkt.Direction ℝ n m}
    (hK : s.system p c.scheme = K.exact) (hq : s.rhs c.mu = q.exact) (hunit : IsUnit K.blockMatrix)
    (hsolves : K.Solves d q) : p.newton? c s = some d.exact ∧ v = p.update c s d.exact := by
  obtain ⟨d', hd', rfl⟩ := h
  obtain ⟨K', q', e, hK', hq', rfl, -, -, hsolves'⟩ := (newton?_eq_some_iff hs).mp hd'
  obtain rfl := Kkt.System.exact_inj.mp (hK'.symm.trans hK)
  obtain rfl := Kkt.Rhs.exact_inj.mp (hq'.symm.trans hq)
  obtain rfl := Kkt.System.solves_unique hunit hsolves' hsolves
  exact ⟨hd', rfl⟩

/-- **A step is made along the real solution of the Newton equations**, with real lengths, and leads
to a real state. -/
theorem Moves.exists_real {v : Update Exact n m} (h : p.Moves c s v) (hs : s.IsAt u) {tau : ℝ}
    (htau : c.tau = tau) (hpos : 0 < tau) (hlt : tau < 1) :
    ∃ (K : Kkt.System ℝ n m) (q : Kkt.Rhs ℝ n m) (d : Kkt.Direction ℝ n m),
      s.system p c.scheme = K.exact ∧ s.rhs c.mu = q.exact ∧ IsUnit K.blockMatrix ∧ K.Solves d q ∧
        v.lengths = (u.reach d tau).exact ∧ v.state.IsAt (u.moved d (u.reach d tau) c.uniform) := by
  obtain ⟨d, hd, rfl⟩ := h
  have hfollow : p.Follows c s (p.update c s d).state := ⟨d, hd, rfl⟩
  obtain ⟨K, q, e, hK, hq, rfl, hunit, -, hsolves⟩ := (newton?_eq_some_iff hs).mp hd
  have hlengths : (p.update c s e.exact).lengths = (u.reach e tau).exact := by
    rw [← Iterate.lengths_exact, ← hs.iterate_eq, ← htau]
    rfl
  have hiterate : (p.update c s e.exact).state.toIterate =
      (u.moved e (u.reach e tau) c.uniform).exact := by
    rw [← Iterate.step_exact, ← hlengths, ← hs.iterate_eq]
    rfl
  -- the interior is known from the step-length rule
  have hinterior := hfollow.interior hs.interior (by simpa [htau] using hpos)
    (by simpa [htau] using hlt)
  refine ⟨K, q, e, hK, hq, hunit, hsolves, hlengths, hiterate, fun i => ?_, fun i => ?_⟩
  · simpa [hiterate, Iterate.exact] using hinterior.x_pos i
  · simpa [hiterate, Iterate.exact] using hinterior.z_pos i

/-- The same for a system and a right-hand side that are known. -/
theorem Moves.exists_solution {v : Update Exact n m} (h : p.Moves c s v) (hs : s.IsAt u) {tau : ℝ}
    (htau : c.tau = tau) (hpos : 0 < tau) (hlt : tau < 1) {K : Kkt.System ℝ n m}
    {q : Kkt.Rhs ℝ n m} (hK : s.system p c.scheme = K.exact) (hq : s.rhs c.mu = q.exact) :
    ∃ d : Kkt.Direction ℝ n m, IsUnit K.blockMatrix ∧ K.Solves d q ∧
      v.lengths = (u.reach d tau).exact ∧ v.state.IsAt (u.moved d (u.reach d tau) c.uniform) := by
  obtain ⟨K', q', d, hK', hq', hunit, hsolves, hlengths, hstate⟩ := h.exists_real hs htau hpos hlt
  obtain rfl := Kkt.System.exact_inj.mp (hK'.symm.trans hK)
  obtain rfl := Kkt.Rhs.exact_inj.mp (hq'.symm.trans hq)
  exact ⟨d, hunit, hsolves, hlengths, hstate⟩

end Problem

/-! ### Whole runs -/

/-- What accepted settings are made of. -/
theorem Options.Accepted.exists_real {o : Options Exact} {c : Settings Exact} (h : o.Accepted c) :
    ∃ mu tau : ℝ, c.mu = mu ∧ c.tau = tau ∧ 0 < mu ∧ 0 < tau ∧ tau < 1 := by
  obtain ⟨mu, hmu, hmupos⟩ := Exact.zero_lt_iff.mp h.mu_pos
  obtain ⟨tau, htau, htaupos⟩ := Exact.zero_lt_iff.mp h.tau_pos
  have hlt := h.tau_lt_one
  rw [htau, Exact.one_eq, Exact.lt_coe, decide_eq_true_eq] at hlt
  exact ⟨mu, tau, hmu, htau, hmupos, htaupos, hlt⟩

/-- A run that takes its course through real states, each with its own values. -/
structure Run.OverReals (r : Run Exact n m) (p : Problem Exact n m) (c : Settings Exact) : Prop where
  course : Course p c c.maxIterations r.start r.updates r.ending
  values_eq : ∀ t ∈ r.visited, t.values = p.evaluate t.x
  exists_isAt : ∀ t ∈ r.visited, ∃ u, t.IsAt u

/-- **From a real start a run goes through real states**, with accepted options and a positive bound on
the start. -/
theorem Newton.overReals_of_solve (w : Newton Exact) (p : Problem Exact n m) {o : Options Exact}
    {c : Settings Exact} (ho : o.check = .ok c) (hmux : 0 < o.mux) (s : Start ℝ) :
    ∃ run w', w.solve p o s.exact = .ok (run, w') ∧
      run.start = (s.exact.iterate o.mu o.mux n m).evaluate p ∧ run.OverReals p c := by
  obtain ⟨w', hw'⟩ := w.solve_eq_ok p ho s.exact
  have hacc := Options.accepted_of_check ho
  obtain ⟨mu, tau, hmu, htau, hmupos, htaupos, htaulr⟩ := hacc.exists_real
  rw [← hacc.mux_eq] at hmux
  rw [← hacc.mu_eq, ← hacc.mux_eq]
  have hcourse := p.course_run c w.kkt s.exact
  refine ⟨_, w', hw', rfl, hcourse, hcourse.forall_of_follows rfl ?_,
    hcourse.forall_of_follows (s.exists_isAt hacc.mu_pos hmux p) ?_⟩
  · exact fun _ _ hfollow _ => hfollow.values_eq
  · rintro s _ ⟨d, hd, rfl⟩ ⟨u, hs⟩
    obtain ⟨_, _, _, _, _, _, _, _, hv⟩ :=
      Problem.Moves.exists_real (v := p.update c s d) ⟨d, hd, rfl⟩ hs htau htaupos htaulr
    exact ⟨_, hv⟩

/-- The states of such a run and their real iterates, in order, with the updates between them. -/
theorem Run.OverReals.exists_states {r : Run Exact n m} {p : Problem Exact n m}
    {c : Settings Exact} (hr : r.OverReals p c) {us : List (Update Exact n m)}
    (hus : r.AllUpdates p c us) :
    ∃ (t : ℕ → State Exact n m) (u : ℕ → Iterate ℝ n m),
      (∀ k ≤ us.length, r.visited[k]? = some (t k) ∧ (t k).IsAt (u k) ∧
        (t k).values = p.evaluate (t k).x) ∧
      ∀ (k : ℕ) (hk : k < us.length), p.Moves c (t k) us[k] ∧ us[k].state = t (k + 1) := by
  have hvisited : ∀ k ≤ us.length, ∃ t u, r.visited[k]? = some t ∧ t.IsAt u ∧
      t.values = p.evaluate t.x := by
    intro k hk
    have hlen : k < r.visited.length := by rw [r.length_visited, ← hus.length_eq]; omega
    obtain ⟨u, hu⟩ := hr.exists_isAt _ (List.getElem_mem hlen)
    exact ⟨_, u, List.getElem?_eq_getElem hlen, hu, hr.values_eq _ (List.getElem_mem hlen)⟩
  obtain ⟨_, ⟨u₀, -⟩⟩ := hvisited 0 (Nat.zero_le _)
  have : Nonempty (State Exact n m) := ⟨r.start⟩
  have : Nonempty (Iterate ℝ n m) := ⟨u₀⟩
  choose! t u h using hvisited
  refine ⟨t, u, h, fun k hk => ?_⟩
  obtain ⟨s, hs, hmove, hnext⟩ := hus.moves k hk
  obtain rfl : t k = s := Option.some.inj ((h k hk.le).1.symm.trans hs)
  exact ⟨hmove, Option.some.inj (hnext.symm.trans (h (k + 1) hk).1)⟩

theorem Options.mux_default_pos : 0 < (Options.default : Options Exact).mux := by
  rw [Exact.zero_lt_iff]
  exact ⟨_, rfl, by positivity⟩

/-- Two shares of a whole, the first of which is to be small. -/
noncomputable def shares : Problem Exact 2 1 where
  objective x := x 0
  gradient _ := Vec.ofReal ![1, 0]
  hessian _ _ := .diagonal (Vec.const 2 0)
  constraint x := Vec.of fun _ => x 0 + x 1 - 1
  jacobian _ := Mat.of fun _ _ => 1

end Optimum

end GibbsNewton
