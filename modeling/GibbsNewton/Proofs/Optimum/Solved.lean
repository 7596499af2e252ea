import GibbsNewton.Proofs.Optimum.Gap

/-!
# Starting where another run ended

A start may be the iterate that another run left behind.  It is taken as it is, as long as it keeps to
the bound on the variables.  If no residual is left there, the right-hand side of the Newton system is
zero, and so is the direction: the run has converged after one iteration, in which nothing moved.

## Main definitions

* `State.Solved` — no residual is left.
* `Run.ConvergedAt` — a run has converged at its start.

## Main results

* `Iterate.iterate_toStart` — **a start at an interior iterate goes on from there.**
* `Problem.Moves.state_eq_of_solved` — a step from a solved state leads nowhere.
* `State.IsAt.step_eq_self_iff` — a step leads nowhere exactly when its direction does.
* `Newton.convergedAt_of_isAt` — **a run from a solved state converges at once and stays there.**
-/

namespace GibbsNewton

open Matrix

variable {n m : ℕ}

/-! ### Starts -/

/-- The vector of a list of the right size. -/
theorem Vec.ofList?_of_length {α : Type} {xs : List α} (h : xs.length = n) :
    Vec.ofList? n xs = some (Vec.of fun i => xs[i]) := by
  subst h
  rw [ofList?, dif_pos rfl]
  rfl

/-- A vector is what is read from the list of its entries. -/
theorem Vec.ofList?_toList {α : Type} (v : Vec α n) : Vec.ofList? n v.toList = some v := by
  rw [ofList?_of_length (by simp [toList])]
  congr 1
  apply Vec.ext
  intro i
  rw [of_apply]
  simp [toList, get]

theorem Vec.sized_toList {α : Type} [Scalar α] (v : Vec α n) : Vec.sized n v.toList = v := by
  rw [sized, ofList?_toList, Option.getD_some]

theorem Vec.toList_ofReal (v : Vec ℝ n) : (Vec.ofReal ⇑v).toList = v.toList.map Exact.real := by
  apply List.ext_getElem
  · simp [toList]
  · intro i hi hj
    simp [toList, ofReal, of, get]

namespace Optimum

/-- The start that goes on from a real iterate is a real one. -/
theorem Iterate.toStart_exact (u : Iterate ℝ n m) : u.exact.toStart = u.toStart.exact := by
  simp only [toStart, exact, Start.exact, Vec.toList_ofReal]

/-- **A start at an interior iterate goes on from there**, if its variables are not below the bound. -/
theorem Iterate.iterate_toStart (u : Iterate ℝ n m) (hz : ∀ i, 0 < u.z i) {mu mux : ℝ}
    (hx : ∀ i, mux * mu ≤ u.x i) : u.toStart.exact.iterate (mu : Exact) mux n m = u.exact := by
  have hsized : ∀ {k} (v : Vec ℝ k), Vec.sized k (v.toList.map Exact.real) = Vec.ofReal ⇑v := by
    intro k v
    rw [← Vec.toList_ofReal, Vec.sized_toList]
  unfold Start.iterate Start.exact toStart exact
  simp only [hsized]
  congr 1
  · apply Vec.ext
    intro i
    simp [hx i]
  · apply Vec.ext
    intro i
    simp [hz i]

/-! ### Steps that lead nowhere -/

/-- A step of positive lengths leads nowhere exactly when its direction does. -/
theorem Iterate.moved_eq_self_iff {u : Iterate ℝ n m} {d : Kkt.Direction ℝ n m} {t : StepLengths ℝ}
    (hcommon : 0 < t.common) (hprimal : 0 < t.primal) (hdual : 0 < t.dual) (uniform : Bool) :
    u.moved d t uniform = u ↔ ⇑d.dx = 0 ∧ ⇑d.dy = 0 ∧ ⇑d.dz = 0 := by
  have hstay : ∀ {k : ℕ} (v : Vec ℝ k) (e : Fin k → ℝ) {r : ℝ}, 0 < r →
      (Vec.of (⇑v + r • e) = v ↔ e = 0) := by
    intro k v e r hr
    rw [← Vec.ofReal_get_inj, Vec.ofReal_inj, Vec.get_of, add_eq_left, smul_eq_zero_iff_right hr.ne']
  obtain ⟨x, y, z⟩ := u
  rw [moved, Iterate.mk.injEq]
  -- the modes differ in the lengths only, and the full step of the constraint multipliers is one of them
  cases uniform with
  | false => exact and_congr (hstay x _ hprimal) (and_congr (hstay y _ one_pos) (hstay z _ hdual))
  | true => exact and_congr (hstay x _ hcommon) (and_congr (hstay y _ hcommon) (hstay z _ hcommon))

/-- A step from a real state along a real direction leads nowhere exactly when the direction does. -/
theorem State.IsAt.step_eq_self_iff {s : State Exact n m} {u : Iterate ℝ n m} (hu : s.IsAt u)
    (d : Kkt.Direction ℝ n m) {tau : ℝ} (htau : 0 < tau) (uniform : Bool) :
    s.step d.exact (s.lengths d.exact tau) uniform = s.toIterate ↔
      ⇑d.dx = 0 ∧ ⇑d.dy = 0 ∧ ⇑d.dz = 0 := by
  obtain ⟨hcommon, hprimal, hdual⟩ := Iterate.reach_pos (d := d) hu.x_pos hu.z_pos htau
  rw [hu.iterate_eq, Iterate.lengths_exact, Iterate.step_exact, Iterate.exact_inj,
    Iterate.moved_eq_self_iff hcommon hprimal hdual]

/-- A state with its own values is its iterate, evaluated. -/
theorem State.evaluate_toIterate {α : Type} {s : State α n m} {p : Problem α n m}
    (h : s.values = p.evaluate s.x) : s.toIterate.evaluate p = s := by
  obtain ⟨u, values⟩ := s
  rw [Iterate.evaluate, ← h]

/-! ### Solved states -/

/-- No residual is left. -/
structure State.Solved (s : State Exact n m) (mu : Exact) : Prop where
  lagrangian_eq : s.lagrangian = Vec.ofReal 0
  constraint_eq : s.values.constraint = Vec.ofReal 0
  complementarity_eq : s.complementarity mu = Vec.ofReal 0

variable {p : Problem Exact n m} {o : Options Exact} {c : Settings Exact} {s : State Exact n m}
  {u : Iterate ℝ n m}

/-- The largest residual of a solved state is zero. -/
theorem State.Solved.worst_eq {mu : Exact} (hs : s.Solved mu) :
    (s.residuals mu).worst = ((0 : ℝ) : Exact) := by
  rw [residuals, hs.lagrangian_eq, hs.constraint_eq, hs.complementarity_eq, Vec.normInf_ofReal,
    Vec.normInf_ofReal, norm_zero, norm_zero, Residuals.worst, Exact.firstMax_coe, Exact.firstMax_coe,
    max_self, max_self]

/-- A solved state passes every test. -/
theorem State.Solved.passes (hs : s.Solved c.mu) (htol : 0 < c.tolerance) : s.passes c = true := by
  unfold State.passes
  rwa [hs.worst_eq, ← Exact.zero_eq, ← Exact.lt_def]

/-- The real right-hand side at a solved state is zero. -/
theorem State.Solved.rhs_eq (hs : s.Solved c.mu) {q : Kkt.Rhs ℝ n m} (hq : s.rhs c.mu = q.exact) :
    ⇑q.rx = 0 ∧ ⇑q.ry = 0 ∧ ⇑q.rz = 0 := by
  have hrx : Vec.ofReal (-0) = Vec.ofReal ⇑q.rx := by
    rw [← Vec.neg_ofReal, ← hs.lagrangian_eq]
    exact congrArg Kkt.Rhs.rx hq
  have hry : Vec.ofReal (-0) = Vec.ofReal ⇑q.ry := by
    rw [← Vec.neg_ofReal, ← hs.constraint_eq]
    exact congrArg Kkt.Rhs.ry hq
  have hrz : Vec.ofReal (-0) = Vec.ofReal ⇑q.rz := by
    rw [← Vec.neg_ofReal, ← hs.complementarity_eq]
    exact congrArg Kkt.Rhs.rz hq
  rw [Vec.ofReal_inj, neg_zero] at hrx hry hrz
  exact ⟨hrx.symm, hry.symm, hrz.symm⟩

/-- **A step from a solved state leads nowhere.** -/
theorem Problem.Moves.state_eq_of_solved {v : Update Exact n m} (h : p.Moves c s v) (hu : s.IsAt u)
    (hvalues : s.values = p.evaluate s.x) (hs : s.Solved c.mu) {tau : ℝ} (htau : c.tau = tau)
    (hpos : 0 < tau) : v.state = s := by
  obtain ⟨d, hd, rfl⟩ := h
  obtain ⟨K, q, e, -, hq, rfl, hunit, -, hsolves⟩ := (newton?_eq_some_iff hu).mp hd
  have hstep : s.step e.exact (s.lengths e.exact c.tau) c.uniform = s.toIterate := by
    rw [htau, hu.step_eq_self_iff e hpos]
    exact (hsolves.eq_zero_iff hunit).mpr (hs.rhs_eq hq)
  rw [update, hstep]
  exact State.evaluate_toIterate hvalues

/-! ### Runs from a solved state -/

/-- A run from the state `s` has converged in its first iteration, without a residual and without leaving
`s`. -/
structure Run.ConvergedAt (r : Run Exact n m) (s : State Exact n m) : Prop where
  start_eq : r.start = s
  status_eq : r.report.status = .converged
  iterations_eq : r.report.iterations = 1
  error_eq : r.report.error = some ((0 : ℝ) : Exact)
  final_eq : r.final = s

/-- **A run from a solved state converges at once and stays there**, whatever the start that is made into
this state. -/
theorem Newton.convergedAt_of_isAt (w : Newton Exact) (p : Problem Exact n m) (ho : o.check = .ok c)
    (htol : 0 < o.tolerance) {start : Start Exact} (hstart : (start.iterate o.mu o.mux n m).evaluate p = s)
    (hu : s.IsAt u) (hs : s.Solved o.mu) (hfinite : s.values.isFinite = true)
    (hdirection : p.newton? c s ≠ none) :
    ∃ run w', w.solve p o start = .ok (run, w') ∧ run.ConvergedAt s := by
  obtain ⟨w', hw'⟩ := w.solve_eq_ok p ho start
  have hacc := Options.accepted_of_check ho
  obtain ⟨mu, tau, -, htau, -, hpos, -⟩ := hacc.exists_real
  have hvalues : s.values = p.evaluate s.x := by rw [← hstart]; rfl
  rw [← hacc.mu_eq] at hs
  rw [← hacc.tolerance_eq] at htol
  obtain ⟨d, hd⟩ := Option.ne_none_iff_exists'.mp hdirection
  have hmove : p.Moves c s (p.update c s d) := ⟨d, hd, rfl⟩
  have hstay : (p.update c s d).state = s := hmove.state_eq_of_solved hu hvalues hs htau hpos
  have herror : (p.update c s d).residuals.worst = ((0 : ℝ) : Exact) := by
    rw [hmove.residuals_eq, hstay, hs.worst_eq]
  obtain ⟨left, hleft⟩ : ∃ left, c.maxIterations = left + 1 :=
    Nat.exists_eq_add_of_le' (by have := hacc.one_le; have := hacc.maxIterations_eq; omega)
  have hcourse := p.course_run c w.kkt start
  rw [hacc.mu_eq, hacc.mux_eq, hstart, hleft] at hcourse
  obtain ⟨hupdates, hending⟩ := hcourse.of_moves_passes hmove (by rw [hstay]; exact hfinite)
    (by rw [hstay]; exact hs.passes htol)
  refine ⟨_, w', hw', ?_, ?_, ?_, ?_, ?_⟩
  · rw [← hstart, ← hacc.mu_eq, ← hacc.mux_eq]
    rfl
  · rw [Run.report, hending]
    rfl
  · rw [Run.report, hending, hupdates]
    rfl
  · rw [Run.report, hupdates]
    exact congrArg some herror
  · rw [Run.final, hending, Run.lastUpdated, hupdates]
    exact hstay

/-- The same from a real start and with a positive bound on it, which make a state in the interior. -/
theorem Newton.converged_of_solved (w : Newton Exact) (p : Problem Exact n m) {o : Options Exact}
    {c : Settings Exact} (ho : o.check = .ok c) (hmux : 0 < o.mux) (htol : 0 < o.tolerance)
    (s : Start ℝ) (hs : ((s.exact.iterate o.mu o.mux n m).evaluate p).Solved o.mu)
    (hfinite : ((s.exact.iterate o.mu o.mux n m).evaluate p).values.isFinite = true)
    (hdirection : p.newton? c ((s.exact.iterate o.mu o.mux n m).evaluate p) ≠ none) :
    ∃ run w', w.solve p o s.exact = .ok (run, w') ∧
      run.report.status = .converged ∧ run.report.iterations = 1 ∧
      run.final = (s.exact.iterate o.mu o.mux n m).evaluate p := by
  have hacc := Options.accepted_of_check ho
  have hmu : 0 < o.mu := hacc.mu_eq ▸ hacc.mu_pos
  obtain ⟨u, hu⟩ := s.exists_isAt hmu hmux p
  obtain ⟨run, w', hw', hrun⟩ := w.convergedAt_of_isAt p ho htol rfl hu hs hfinite hdirection
  exact ⟨run, w', hw', hrun.status_eq, hrun.iterations_eq, hrun.final_eq⟩

end Optimum

end GibbsNewton
