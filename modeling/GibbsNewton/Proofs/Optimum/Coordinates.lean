import GibbsNewton.Proofs.Kkt.Coordinates
import GibbsNewton.Proofs.Optimum.SideBySide
import GibbsNewton.Proofs.Optimum.Solved

/-!
# Runs in other coordinates

A problem whose functions are those of another one in other coordinates, and the runs of both.  The
start is raised and completed in the same way in both, a Newton direction exists in both or in neither,
and is the same direction; the ratios that bound the length of a step are the same numbers in another
order; so a step leads from corresponding iterates to corresponding ones.  The barrier parameter is
measured in the unit of the variables.

The functions of the problems need to correspond at the iterates that are met, not everywhere: they do
so on a set of points, and the runs correspond as long as they stay in it.

## Main definitions

* `Iterate.inCoordinates` — an iterate in other coordinates.
* `Problem.InCoordinates` — the functions of a problem are those of another one in other coordinates,
  on a set of points.
* `State.Corresponds` — two states at corresponding iterates, each with its own values.
* `Start.sized` — the vectors that are read from a start.

## Main results

* `Coordinates.reach_direction`, `Coordinates.moved_direction` — **steps in other coordinates.**
* `Problem.InCoordinates.sideBySide` — **one step of a problem and of the one in other coordinates.**
* `Start.corresponds` — the starting iterates correspond.
* `Newton.inCoordinates_of_solve` — **runs in other coordinates.**
-/

namespace GibbsNewton

open Matrix

variable {n m : ℕ}

namespace Optimum

/-! ### Second derivatives -/

/-- Another order and a function of the entries commute with what a scheme makes of second
derivatives. -/
theorem HessianScheme.apply_reorder {α : Type} [Scalar α] (scheme : HessianScheme)
    (H : Hessian α n) (e : Equiv.Perm (Fin n)) :
    scheme.apply (H.reorder e) = (scheme.apply H).reorder e := by
  cases scheme with
  | exact =>
    have hmatrix : (H.reorder e).toMat = Mat.of fun i j => H.toMat (e i) (e j) :=
      Mat.ext_apply fun i j => by rw [Hessian.toMat_reorder_apply, Mat.of_apply]
    rw [apply, hmatrix]
    rfl
  | diagonal =>
    have hdiagonal : (H.reorder e).toDiagonal = H.toDiagonal.reorder e := by
      apply Vec.ext
      intro i
      cases H <;> simp [Hessian.reorder, Hessian.toDiagonal]
    rw [apply, hdiagonal]
    rfl

theorem HessianScheme.apply_map {α β : Type} [Scalar α] [Scalar β] (scheme : HessianScheme)
    {f : α → β} (hf : f 0 = 0) (H : Hessian α n) : scheme.apply (H.map f) = (scheme.apply H).map f := by
  cases scheme with
  | exact =>
    have hmatrix : (H.map f).toMat = Mat.of fun i j => f (H.toMat i j) :=
      Mat.ext_apply fun i j => by rw [Hessian.toMat_map_apply hf, Mat.of_apply]
    rw [apply, hmatrix]
    rfl
  | diagonal =>
    have hdiagonal : (H.map f).toDiagonal = H.toDiagonal.map f := by
      apply Vec.ext
      intro i
      cases H <;> simp [Hessian.map, Hessian.toDiagonal]
    rw [apply, hdiagonal]
    rfl

/-! ### Iterates and steps -/

/-- An iterate in other coordinates. -/
noncomputable def Iterate.inCoordinates (u : Iterate ℝ n m) (T : Coordinates n m) :
    Iterate ℝ n m where
  x := Vec.of (T.primal ⇑u.x)
  y := Vec.of (T.multiplier ⇑u.y)
  z := Vec.of (T.dual ⇑u.z)

end Optimum

namespace Coordinates

open Optimum

variable (T : Coordinates n m)

theorem boundaryFraction_primal (x dx : Fin n → ℝ) (tau : ℝ) :
    boundaryFraction (T.primal x) (T.primal dx) tau = boundaryFraction x dx tau := by
  have hscale := T.scale_pos
  refine boundaryFraction_eq_of_ratio T.order fun i => ?_
  unfold boundaryRatio
  by_cases hlt : dx (T.order i) < 0
  · rw [primal_apply, primal_apply, if_pos (mul_neg_of_pos_of_neg hscale hlt), if_pos hlt,
      mul_left_comm, mul_div_mul_left _ _ hscale.ne']
  · rw [primal_apply, if_neg (not_lt.mpr (mul_nonneg hscale.le (not_lt.mp hlt))), if_neg hlt]

theorem boundaryFraction_dual (z dz : Fin n → ℝ) (tau : ℝ) :
    boundaryFraction (T.dual z) (T.dual dz) tau = boundaryFraction z dz tau :=
  boundaryFraction_eq_of_ratio T.order fun _ => rfl

/-- **The lengths of a step are the same.** -/
theorem reach_direction (u : Iterate ℝ n m) (d : Kkt.Direction ℝ n m) (tau : ℝ) :
    (u.inCoordinates T).reach (T.direction d) tau = u.reach d tau := by
  simp only [Iterate.reach, Iterate.inCoordinates, direction, Vec.get_of, boundaryFraction_primal,
    boundaryFraction_dual]

/-- **A step leads to the corresponding iterate.** -/
theorem moved_direction (u : Iterate ℝ n m) (d : Kkt.Direction ℝ n m) (t : StepLengths ℝ)
    (uniform : Bool) :
    (u.inCoordinates T).moved (T.direction d) t uniform = (u.moved d t uniform).inCoordinates T := by
  simp only [Iterate.moved, Iterate.inCoordinates, direction, Vec.get_of, map_add, map_smul]

theorem x_pos_inCoordinates {u : Iterate ℝ n m} (h : ∀ i, 0 < u.x i) (i : Fin n) :
    0 < (u.inCoordinates T).x i := by
  rw [Iterate.inCoordinates, Vec.of_apply, primal_apply]
  exact mul_pos T.scale_pos (h _)

theorem z_pos_inCoordinates {u : Iterate ℝ n m} (h : ∀ i, 0 < u.z i) (i : Fin n) :
    0 < (u.inCoordinates T).z i := by
  rw [Iterate.inCoordinates, Vec.of_apply, dual_apply]
  exact h _

theorem system_iterate (u : Iterate ℝ n m) (H : Hessian ℝ n) (A : Matrix (Fin m) (Fin n) ℝ) :
    T.system (u.system H A) = (u.inCoordinates T).system (T.hessian H) (T.jacobian A) := by
  simp only [system, Iterate.system, Iterate.inCoordinates, Mat.toMatrix_ofMatrix]

theorem rhs_iterate (u : Iterate ℝ n m) (g : Fin n → ℝ) (h : Fin m → ℝ)
    (A : Matrix (Fin m) (Fin n) ℝ) (mu : ℝ) :
    T.rhs (u.rhs g h A mu) =
      (u.inCoordinates T).rhs (T.dual g) (T.constraint h) (T.jacobian A) (T.scale * mu) := by
  have hcentrality : T.primal (-fun i => u.x i * u.z i - mu) =
      -fun i => T.primal ⇑u.x i * T.dual ⇑u.z i - T.scale * mu := by
    funext i
    simp only [primal_apply, dual_apply, Pi.neg_apply]
    ring
  simp only [rhs, Iterate.rhs, Iterate.inCoordinates, Vec.get_of, hcentrality, map_neg, map_sub,
    transpose_jacobian_mulVec]

end Coordinates

namespace Optimum

/-! ### Problems -/

/-- The functions of `p'` are those of `p` in other coordinates at the points of `D`. -/
structure Problem.InCoordinates (p p' : Problem Exact n m) (T : Coordinates n m)
    (D : Set (Fin n → ℝ)) : Prop where
  gradient_eq : ∀ x ∈ D, p'.gradient (Vec.ofReal (T.primal x)) =
    (p.gradient (Vec.ofReal x)).reorder T.order
  hessian_eq : ∀ x ∈ D, ∀ g, p'.hessian (Vec.ofReal (T.primal x)) (g.reorder T.order) =
    ((p.hessian (Vec.ofReal x) g).reorder T.order).map (· / (T.scale : Exact))
  constraint_eq : ∀ x ∈ D, p'.constraint (Vec.ofReal (T.primal x)) =
    (Mat.ofReal (T.scale • (↑T.basis : Matrix (Fin m) (Fin m) ℝ))).mulVec
      (p.constraint (Vec.ofReal x))
  jacobian_eq : ∀ x ∈ D, p'.jacobian (Vec.ofReal (T.primal x)) =
    (Mat.ofReal (↑T.basis : Matrix (Fin m) (Fin m) ℝ)).mul
      ((p.jacobian (Vec.ofReal x)).map (Vec.reorder · T.order))

/-- Two states, of one problem each, at corresponding iterates. -/
structure State.Corresponds (s s' : State Exact n m) (p p' : Problem Exact n m)
    (T : Coordinates n m) (u : Iterate ℝ n m) : Prop where
  isAt : s.IsAt u
  isAt' : s'.IsAt (u.inCoordinates T)
  values_eq : s.values = p.evaluate s.x
  values_eq' : s'.values = p'.evaluate s'.x

namespace Problem.InCoordinates

variable {p p' : Problem Exact n m} {c : Settings Exact} {T : Coordinates n m}
  {D : Set (Fin n → ℝ)} {s s' : State Exact n m} {u : Iterate ℝ n m} {scheme : HessianScheme}
  (hp : p.InCoordinates p' T D) (hs : s.Corresponds s' p p' T u) (hu : ⇑u.x ∈ D)

include hp hs hu

theorem gradient_corresponds : s'.values.gradient = s.values.gradient.reorder T.order := by
  rw [hs.values_eq, hs.values_eq', hs.isAt.x_eq, hs.isAt'.x_eq, Iterate.inCoordinates, Vec.get_of]
  exact hp.gradient_eq _ hu

theorem constraint_corresponds :
    s'.values.constraint =
      (Mat.ofReal (T.scale • (↑T.basis : Matrix (Fin m) (Fin m) ℝ))).mulVec s.values.constraint := by
  rw [hs.values_eq, hs.values_eq', hs.isAt.x_eq, hs.isAt'.x_eq, Iterate.inCoordinates, Vec.get_of]
  exact hp.constraint_eq _ hu

theorem jacobian_corresponds :
    s'.values.jacobian = (Mat.ofReal (↑T.basis : Matrix (Fin m) (Fin m) ℝ)).mul
      (s.values.jacobian.map (Vec.reorder · T.order)) := by
  rw [hs.values_eq, hs.values_eq', hs.isAt.x_eq, hs.isAt'.x_eq, Iterate.inCoordinates, Vec.get_of]
  exact hp.jacobian_eq _ hu

theorem hessian_corresponds :
    scheme.apply (p'.hessian s'.x s'.values.gradient) =
      ((scheme.apply (p.hessian s.x s.values.gradient)).reorder T.order).map
        (· / (T.scale : Exact)) := by
  rw [hp.gradient_corresponds hs hu, hs.isAt.x_eq, hs.isAt'.x_eq, Iterate.inCoordinates, Vec.get_of,
    hp.hessian_eq _ hu, HessianScheme.apply_map scheme (f := (· / (T.scale : Exact)))
    T.zero_div_scale, HessianScheme.apply_reorder]

/-- Real values have the corresponding real values beside them. -/
theorem realValues {g : Fin n → ℝ} {h : Fin m → ℝ} {A : Matrix (Fin m) (Fin n) ℝ}
    (hreal : s.RealValues g h A) :
    s'.RealValues (T.dual g) (T.constraint h) (T.jacobian A) where
  gradient_eq := by
    rw [hp.gradient_corresponds hs hu, hreal.gradient_eq, Vec.reorder_ofReal]
    rfl
  constraint_eq := by
    rw [hp.constraint_corresponds hs hu, hreal.constraint_eq, Mat.mulVec_ofReal, smul_mulVec,
      Coordinates.constraint_apply]
  jacobian_eq := by
    rw [hp.jacobian_corresponds hs hu, hreal.jacobian_eq, Mat.map_reorder_ofReal, Mat.mul_ofReal,
      Coordinates.jacobian]

theorem realData {H : Hessian ℝ n} {g : Fin n → ℝ} {h : Fin m → ℝ} {A : Matrix (Fin m) (Fin n) ℝ}
    (hreal : s.RealData p scheme H g h A) :
    s'.RealData p' scheme (T.hessian H) (T.dual g) (T.constraint h) (T.jacobian A) where
  toRealValues := hp.realValues hs hu hreal.toRealValues
  hessian_eq := by
    rw [hp.hessian_corresponds hs hu, hreal.hessian_eq, Coordinates.hessian_exact]

/-- Real data come from real data. -/
theorem exists_realData {H' : Hessian ℝ n} {g' : Fin n → ℝ} {h' : Fin m → ℝ}
    {A' : Matrix (Fin m) (Fin n) ℝ} (hreal : s'.RealData p' scheme H' g' h' A') :
    ∃ H g h A, s.RealData p scheme H g h A := by
  have hgradient : s.values.gradient.isFinite = true := by
    rw [← Vec.isFinite_reorder _ T.order, ← hp.gradient_corresponds hs hu, hreal.gradient_eq,
      Vec.isFinite_ofReal]
  have hconstraint : s.values.constraint.isFinite = true := by
    rw [← Mat.isFinite_mulVec_ofReal, ← hp.constraint_corresponds hs hu, hreal.constraint_eq,
      Vec.isFinite_ofReal]
  have hjacobian : s.values.jacobian.isFinite = true := by
    rw [← Mat.isFinite_mul_ofReal _ _ T.order, ← hp.jacobian_corresponds hs hu, hreal.jacobian_eq,
      Mat.isFinite_ofReal]
  have hhessian : (scheme.apply (p.hessian s.x s.values.gradient)).toMat.isFinite = true := by
    rw [← T.isFinite_hessian_iff, ← hp.hessian_corresponds hs hu, hreal.hessian_eq,
      Hessian.toMat_exact, Mat.isFinite_ofReal]
  obtain ⟨H, hH⟩ := Hessian.exists_exact hhessian
  obtain ⟨g, hg⟩ := Vec.isFinite_iff.mp hgradient
  obtain ⟨h, hh⟩ := Vec.isFinite_iff.mp hconstraint
  obtain ⟨A, hA⟩ := Mat.isFinite_iff.mp hjacobian
  exact ⟨H, g, h, A, ⟨hg, hh, hA⟩, hH⟩

/-! ### One step -/

/-- Real Newton equations are the same equations in the new coordinates. -/
theorem exists_equations {mu : ℝ} (hmu : c.mu = mu)
    (hreal : ∃ H g h A, s.RealData p c.scheme H g h A) :
    ∃ (K : Kkt.System ℝ n m) (q : Kkt.Rhs ℝ n m), (∀ i, K.x i ≠ 0) ∧
      s.system p c.scheme = K.exact ∧ s.rhs c.mu = q.exact ∧
      s'.system p' c.scheme = (T.system K).exact ∧
      s'.rhs ((T.scale : Exact) * c.mu) = (T.rhs q).exact := by
  obtain ⟨H, g, h, A, hreal⟩ := hreal
  have hreal' := hp.realData hs hu hreal
  refine ⟨u.system H A, u.rhs g h A mu, fun i => (hs.isAt.x_pos i).ne', hreal.system_eq hs.isAt, ?_,
    ?_, ?_⟩
  · rw [hmu]
    exact hreal.rhs_eq hs.isAt mu
  · rw [T.system_iterate]
    exact hreal'.system_eq hs.isAt'
  · rw [hmu, Exact.mul_coe, T.rhs_iterate]
    exact hreal'.rhs_eq hs.isAt' _

/-- **There are two directions or none.** -/
theorem newton?_iff {mu : ℝ} (hmu : c.mu = mu) :
    p.newton? c s ≠ none ↔ p'.newton? { c with mu := (T.scale : Exact) * c.mu } s' ≠ none := by
  by_cases hreal : ∃ H g h A, s.RealData p c.scheme H g h A
  · obtain ⟨K, q, hx, hsystem, hrhs, hsystem', hrhs'⟩ := hp.exists_equations hs hu hmu hreal
    rw [newton?_ne_none_iff hs.isAt hsystem hrhs,
      newton?_ne_none_iff (c := { c with mu := (T.scale : Exact) * c.mu }) hs.isAt' hsystem' hrhs',
      T.isUnit_blockMatrix_iff hx, T.isUnit_curvatureMatrix_iff]
  · -- without real data there is no direction in either coordinates
    constructor
    · intro hfound
      exact absurd (Problem.exists_realData hs.isAt hfound) hreal
    · intro hfound
      obtain ⟨H', g', h', A', hreal'⟩ := Problem.exists_realData hs.isAt' hfound
      exact absurd (hp.exists_realData hs hu hreal') hreal

/-- **Two updates have the same lengths and lead to corresponding states.** -/
theorem moves {mu tau : ℝ} (hmu : c.mu = mu) (htau : c.tau = tau) (hpos : 0 < tau) (hlt : tau < 1)
    {v v' : Update Exact n m} (hmove : p.Moves c s v)
    (hmove' : p'.Moves { c with mu := (T.scale : Exact) * c.mu } s' v') :
    v'.lengths = v.lengths ∧ ∃ w, v.state.Corresponds v'.state p p' T w := by
  have hfound : p.newton? c s ≠ none := by
    obtain ⟨d, hd, -⟩ := hmove
    rw [hd]
    exact Option.some_ne_none d
  obtain ⟨K, q, -, hsystem, hrhs, hsystem', hrhs'⟩ :=
    hp.exists_equations hs hu hmu (Problem.exists_realData hs.isAt hfound)
  obtain ⟨e, -, hsolves, hlengths, hstate⟩ :=
    hmove.exists_solution hs.isAt htau hpos hlt hsystem hrhs
  obtain ⟨e', hunit', hsolves', hlengths', hstate'⟩ :=
    hmove'.exists_solution hs.isAt' htau hpos hlt hsystem' hrhs'
  -- the equations have one solution, and the direction in the new coordinates is one
  obtain rfl : e' = T.direction e :=
    Kkt.System.solves_unique hunit' hsolves' (T.solves_direction hsolves)
  rw [T.reach_direction] at hlengths' hstate'
  rw [T.moved_direction] at hstate'
  refine ⟨hlengths'.trans hlengths.symm, _, hstate, hstate', ?_, ?_⟩
  · exact hmove.follows.values_eq
  · exact hmove'.follows.values_eq

omit hs hu

/-- **One step of a problem and of the one in other coordinates.** -/
theorem sideBySide {mu tau : ℝ} (hmu : c.mu = mu) (htau : c.tau = tau) (hpos : 0 < tau)
    (hlt : tau < 1) :
    p.SideBySide c p' { c with mu := (T.scale : Exact) * c.mu }
      (fun _ s s' => ∃ u, s.Corresponds s' p p' T u ∧ ⇑u.x ∈ D)
      fun _ s s' => ∃ u, s.Corresponds s' p p' T u where
  newton?_iff := by
    rintro - s s' ⟨u, hs, hu⟩
    exact hp.newton?_iff hs hu hmu
  lengths_eq := by
    rintro - s s' v v' ⟨u, hs, hu⟩ hmove hmove'
    exact (hp.moves hs hu hmu htau hpos hlt hmove hmove').1
  related := by
    rintro - s s' v v' ⟨u, hs, hu⟩ hmove hmove'
    exact (hp.moves hs hu hmu htau hpos hlt hmove hmove').2

end Problem.InCoordinates

/-! ### Starts -/

/-- The vectors that are read from a start; one of a wrong size counts as zeros. -/
def Start.sized (s : Start ℝ) (n m : ℕ) : Iterate ℝ n m where
  x := (Vec.ofList? n s.x).getD (Vec.of 0)
  y := (Vec.ofList? m s.y).getD (Vec.of 0)
  z := (Vec.ofList? n s.z).getD (Vec.of 0)

/-- A real iterate with its variables raised to a bound and its bound multipliers made positive. -/
noncomputable def Iterate.raised (u : Iterate ℝ n m) (mu mux : ℝ) : Iterate ℝ n m where
  x := Vec.of fun i => max (u.x i) (mux * mu)
  y := u.y
  z := Vec.of fun i => if 0 < u.z i then u.z i else mu / max (u.x i) (mux * mu)

theorem Vec.sized_map_real (k : ℕ) (xs : List ℝ) :
    Vec.sized k (xs.map Exact.real) = Vec.ofReal ⇑((Vec.ofList? k xs).getD (Vec.of 0)) := by
  by_cases hk : xs.length = k
  · rw [Vec.sized, Vec.ofList?_of_length hk, Vec.ofList?_of_length (by simpa using hk),
      Option.getD_some, Option.getD_some]
    apply Vec.ext
    intro i
    simp
  · rw [Vec.sized, Vec.ofList?, dif_neg (by simpa using hk), Vec.ofList?, dif_neg hk]
    apply Vec.ext
    intro i
    simp

/-- The start of a run, over the reals, where the bound multipliers are not divided by zero. -/
theorem Start.iterate_exact_of_ne_zero (s : Start ℝ) {mu mux : ℝ}
    (hne : ∀ i, max ((s.sized n m).x i) (mux * mu) ≠ 0) :
    s.exact.iterate (mu : Exact) mux n m = ((s.sized n m).raised mu mux).exact := by
  unfold iterate exact sized Iterate.raised Iterate.exact
  simp only [Vec.sized_map_real, Vec.get_of]
  congr 1
  · apply Vec.ext
    intro i
    simp
  · apply Vec.ext
    intro i
    have hx : max (((Vec.ofList? n s.x).getD (Vec.of 0)) i) (mux * mu) ≠ 0 := hne i
    by_cases hz : 0 < ((Vec.ofList? n s.z).getD (Vec.of 0)) i
    · simp [hz]
    · simp [hz, Exact.div_coe _ hx]

/-- Above a positive bound nothing is divided by zero. -/
theorem Start.iterate_exact (s : Start ℝ) {mu mux : ℝ} (hpos : 0 < mux * mu) :
    s.exact.iterate (mu : Exact) mux n m = ((s.sized n m).raised mu mux).exact :=
  s.iterate_exact_of_ne_zero fun _ => (lt_max_of_lt_right hpos).ne'

/-- Raising goes with the unit of the variables. -/
theorem Iterate.raised_inCoordinates (u : Iterate ℝ n m) (T : Coordinates n m) (mu mux : ℝ) :
    (u.inCoordinates T).raised (T.scale * mu) mux = (u.raised mu mux).inCoordinates T := by
  have hmax : ∀ a : ℝ, max (T.scale * a) (mux * (T.scale * mu)) = T.scale * max a (mux * mu) := by
    intro a
    rw [mul_left_comm, mul_max_of_nonneg _ _ T.scale_pos.le]
  unfold raised inCoordinates
  simp only [Vec.get_of, Vec.of_apply, Coordinates.primal_apply, Coordinates.dual_apply, hmax,
    mul_div_mul_left _ _ T.scale_pos.ne']
  rfl

/-- **The starting states correspond.** -/
theorem Start.corresponds {s s' : Start ℝ} {T : Coordinates n m}
    (hs : s'.sized n m = (s.sized n m).inCoordinates T) (p p' : Problem Exact n m) {mu mux : ℝ}
    (hmu : 0 < mu) (hmux : 0 < mux) :
    ∃ u, ((s.exact.iterate (mu : Exact) mux n m).evaluate p).Corresponds
      ((s'.exact.iterate ((T.scale * mu : ℝ) : Exact) mux n m).evaluate p') p p' T u := by
  have hmu' : 0 < T.scale * mu := mul_pos T.scale_pos hmu
  have hx : ∀ i, 0 < ((s.sized n m).raised mu mux).x i := by
    intro i
    rw [Iterate.raised, Vec.of_apply]
    exact lt_max_of_lt_right (mul_pos hmux hmu)
  have hz : ∀ i, 0 < ((s.sized n m).raised mu mux).z i := by
    intro i
    have hxi := hx i
    rw [Iterate.raised, Vec.of_apply] at hxi ⊢
    split
    next h => exact h
    next h => exact div_pos hmu hxi
  refine ⟨(s.sized n m).raised mu mux, ⟨?_, hx, hz⟩, ⟨?_, ?_, ?_⟩, rfl, rfl⟩
  · exact s.iterate_exact (mul_pos hmux hmu)
  · rw [← Iterate.raised_inCoordinates, ← hs]
    exact s'.iterate_exact (mul_pos hmux hmu')
  · exact T.x_pos_inCoordinates hx
  · exact T.z_pos_inCoordinates hz

/-! ### Whole runs -/

/-- Accepted options stay so with another positive barrier parameter. -/
theorem Options.check_of_mu {o : Options Exact} {c : Settings Exact} (ho : o.check = .ok c)
    {mu : Exact} (hmu : 0 < mu) :
    ({ o with mu } : Options Exact).check = .ok { c with mu } := by
  have hacc := accepted_of_check ho
  exact Accepted.check_eq { hacc with mu_pos := hmu, mu_eq := rfl }

/-- **Solvers answer runs that are side by side** to a problem and to the one in other coordinates, with
the barrier parameter in the unit of the variables. -/
theorem Newton.inCoordinates_of_solve (w w' : Newton Exact) {p p' : Problem Exact n m}
    {T : Coordinates n m} {D : Set (Fin n → ℝ)} (hp : p.InCoordinates p' T D) {o : Options Exact}
    {c : Settings Exact} (ho : o.check = .ok c) (hmux : 0 < o.mux) {s s' : Start ℝ}
    (hs : s'.sized n m = (s.sized n m).inCoordinates T) :
    ∃ run v run' v' us us',
      w.solve p o s.exact = .ok (run, v) ∧
      w'.solve p' { o with mu := (T.scale : Exact) * o.mu } s'.exact = .ok (run', v') ∧
      run.SideBySide p c us run' p' { c with mu := (T.scale : Exact) * c.mu } us'
        (fun _ t t' => ∃ u, t.Corresponds t' p p' T u ∧ ⇑u.x ∈ D)
        fun _ t t' => ∃ u, t.Corresponds t' p p' T u := by
  have hacc := Options.accepted_of_check ho
  obtain ⟨mu, tau, hmu, htau, hmupos, htaupos, htaulr⟩ := hacc.exists_real
  obtain ⟨mux, hmuxeq, hmuxpos⟩ := Exact.zero_lt_iff.mp hmux
  have hscaled : (T.scale : Exact) * c.mu = ((T.scale * mu : ℝ) : Exact) := by
    rw [hmu, Exact.mul_coe]
  have ho' : ({ o with mu := (T.scale : Exact) * o.mu } : Options Exact).check =
      .ok { c with mu := (T.scale : Exact) * c.mu } := by
    rw [← hacc.mu_eq]
    refine Options.check_of_mu ho ?_
    rw [hscaled, Exact.zero_eq, Exact.coe_lt_coe]
    exact mul_pos T.scale_pos hmupos
  have hstart := Start.corresponds hs p p' hmupos hmuxpos
  rw [← hscaled, ← hmu, ← hmuxeq, ← hacc.mux_eq] at hstart
  exact w.sideBySide_of_solve w' ho ho' (hp.sideBySide hmu htau htaupos htaulr) hstart

end Optimum

end GibbsNewton
