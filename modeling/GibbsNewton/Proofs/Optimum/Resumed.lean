import GibbsNewton.Proofs.Kkt.Definite
import GibbsNewton.Proofs.Optimum.Lockstep
import GibbsNewton.Proofs.Optimum.Solved

/-!
# Stopping and going on

A run that has used up its iterations may be gone on with, by a second run from the point it left.
Nothing is lost on the way.  The solver of the Newton systems has no influence on a run; the values at
the point are computed again and come out the same; and the start made of the point is the point, as
long as its variables are not below the bound and its bound multipliers are positive.  So the two runs
make the updates of one run with the iterations of both.

Nothing of this is about exact arithmetic; it holds of every scalar, and so also of the numbers that a
program runs on.  All it takes is that a maximum is the first operand where this is not the smaller one.
Two zeros are apart here: their maximum is a sum, which need not have the sign of the first.  So the bound
must not be zero, and in exact arithmetic it is not.

## Main definitions

* `Scalar.AtLeast` — a number that is not below another.
* `Run.Joins` — one run comes to what two runs come to of which one goes on with the other.

## Main results

* `Iterate.iterate_toStart_of_atLeast` — a start at an interior iterate is the iterate.
* `Course.append` — a course of used up iterations and a course from its last state are one course.
* `Newton.joins_of_bound_ne_zero` — two runs one after the other, over any scalar.
* `Newton.joins_of_solve` — **stopping and going on is running through.**
-/

namespace GibbsNewton

variable {α : Type} {n m : Nat}

/-! ### Starts -/

section

variable [Scalar α]

/-- The number `a` is not below the number `b`. -/
def Scalar.AtLeast (a b : α) : Prop :=
  (a == a) = true ∧ (b == b) = true ∧ Scalar.lt a b = false

theorem Scalar.maximum_eq_left {a b : α} (h : AtLeast a b) (hb : (b == 0) = false) :
    maximum a b = a := by
  obtain ⟨ha, hb', hlt⟩ := h
  simp [maximum, ha, hb', hlt, hb]

/-- A start at an interior iterate is the iterate. -/
theorem Optimum.Iterate.iterate_toStart_of_atLeast (u : Iterate α n m) {mu mux : α}
    (hbound : (mux * mu == 0) = false) (hx : ∀ i, Scalar.AtLeast (u.x i) (mux * mu))
    (hz : ∀ i, Scalar.lt 0 (u.z i) = true) : u.toStart.iterate mu mux n m = u := by
  obtain ⟨x, y, z⟩ := u
  unfold Start.iterate toStart
  simp only [Vec.sized_toList]
  congr 1
  · apply Vec.ext
    intro i
    rw [Vec.map_apply, Scalar.maximum_eq_left (hx i) hbound]
  · apply Vec.ext
    intro i
    rw [Vec.of_apply, if_pos (hz i)]

end

/-- Of exact values, it is the order of the reals. -/
theorem Exact.atLeast_iff {a b : Exact} : Scalar.AtLeast a b ↔ b ≤ a := by
  constructor
  · rintro ⟨ha, hb, hlt⟩
    obtain ⟨r, rfl⟩ := isFinite_iff.mp (isFinite_of_beq ha)
    obtain ⟨s, rfl⟩ := isFinite_iff.mp (isFinite_of_beq hb)
    simpa using hlt
  · rintro ⟨s, r, rfl, rfl, hle⟩
    simp [Scalar.AtLeast, hle]

namespace Optimum

/-! ### Runs one after the other -/

/-- The run `r` comes to what the run `rest` comes to that goes on with the run `first`, which made
`count` iterations. -/
structure Run.Joins (r first rest : Run α n m) [Scalar α] (count : Int) : Prop where
  /-- It leaves the same point with the same values. -/
  final_eq : r.final = rest.final
  status_eq : r.report.status = rest.report.status
  succeeded_eq : r.report.succeeded = rest.report.succeeded
  iterations_eq : (r.report.iterations : Int) = count + rest.report.iterations
  /-- The error is that of the second run if this has measured one. -/
  error_eq : rest.updates ≠ [] → r.report.error = rest.report.error
  error_eq_first : rest.updates = [] → r.report.error = first.report.error

theorem Run.lastUpdated_append (s : State α n m) (us vs : List (Update α n m))
    (e e' : Ending α n m) :
    (⟨s, us ++ vs, e⟩ : Run α n m).lastUpdated =
      (⟨(⟨s, us, e'⟩ : Run α n m).lastUpdated, vs, e⟩ : Run α n m).lastUpdated := by
  induction us generalizing s with
  | nil => rfl
  | cons u us ih =>
    rw [List.cons_append, lastUpdated_cons, lastUpdated_cons s u us]
    exact ih u.state

variable [Scalar α] {p : Problem α n m} {c : Settings α} {left more : Nat} {s : State α n m}
  {us vs : List (Update α n m)} {e : Ending α n m}

theorem Run.joins_append (s : State α n m) (us vs : List (Update α n m)) (e : Ending α n m) :
    (⟨s, us ++ vs, e⟩ : Run α n m).Joins ⟨s, us, .iterationLimit⟩
      ⟨(⟨s, us, .iterationLimit⟩ : Run α n m).lastUpdated, vs, e⟩ us.length where
  final_eq := by
    have hlast := lastUpdated_append s us vs e .iterationLimit
    cases e with
    | notFinite t => rfl
    | converged => exact hlast
    | iterationLimit => exact hlast
    | noDirection => exact hlast
  status_eq := rfl
  succeeded_eq := rfl
  iterations_eq := by
    cases e <;> simp only [report, List.length_append] <;> omega
  error_eq := by
    intro hvs
    simp only [report, List.getLast?_append_of_ne_nil us hvs]
  error_eq_first := by
    rintro rfl
    simp only [report, List.append_nil]

/-- A course does not depend on how many iterations the settings allow. -/
theorem Course.of_maxIterations {count : Nat}
    (h : Course p { c with maxIterations := count } left s us e) : Course p c left s us e := by
  induction h with
  | iterationLimit s => exact .iterationLimit s
  | noDirection none => exact .noDirection none
  | notFinite move infinite => exact .notFinite move infinite
  | converged move finite pass => exact .converged move finite pass
  | step move finite fail rest ih => exact .step move finite fail ih

/-- The course that a run takes with another number of iterations. -/
theorem Problem.course_run_of_maxIterations (p : Problem α n m) (c : Settings α) (count : Nat)
    (kkt : Kkt.Solver α) (s : Start α) :
    Course p c count (p.run { c with maxIterations := count } kkt s).1.start
      (p.run { c with maxIterations := count } kkt s).1.updates
      (p.run { c with maxIterations := count } kkt s).1.ending :=
  (p.course_run { c with maxIterations := count } kkt s).of_maxIterations

/-- **A course that used up its iterations, gone on with by another, is a course.** -/
theorem Course.append (h : Course p c left s us .iterationLimit)
    (h' : Course p c more (⟨s, us, .iterationLimit⟩ : Run α n m).lastUpdated vs e) :
    Course p c (left + more) s (us ++ vs) e := by
  generalize he : Ending.iterationLimit = e₁ at h h'
  induction h with
  | iterationLimit s =>
    rw [Nat.zero_add]
    exact h'
  | step move finite fail rest ih =>
    rw [Nat.add_right_comm]
    rw [Run.lastUpdated_cons] at h'
    exact .step move finite fail (ih he h')
  | _ => cases he

/-- Two runs one after the other, and the run with the iterations of both. -/
theorem Course.joins {r first rest : Run α n m}
    (hfirst : Course p c left first.start first.updates first.ending)
    (hlimit : first.ending = .iterationLimit)
    (hrest : Course p c more rest.start rest.updates rest.ending) (hgoes : rest.start = first.final)
    (hr : Course p c (left + more) r.start r.updates r.ending) (hstart : r.start = first.start) :
    r.Joins first rest left := by
  obtain ⟨s, us, e⟩ := first
  obtain ⟨t, vs, e'⟩ := rest
  obtain ⟨s', ws, e''⟩ := r
  obtain rfl : e = .iterationLimit := hlimit
  obtain rfl : s' = s := hstart
  obtain rfl : t = (⟨s', us, .iterationLimit⟩ : Run α n m).lastUpdated := hgoes
  obtain ⟨rfl, rfl⟩ : ws = us ++ vs ∧ e'' = e' := (hfirst.append hrest).unique hr
  rw [← hfirst.length_of_iterationLimit]
  exact Run.joins_append s' us vs e''

/-! ### Solving again -/

/-- Accepted options stay so with any positive number of iterations. -/
theorem Options.check_of_maxIterations {o : Options α} (ho : o.check = .ok c) {count : Int}
    (hcount : 1 ≤ count) :
    ({ o with maxIterations := count } : Options α).check =
      .ok { c with maxIterations := count.toNat } := by
  have hacc := accepted_of_check ho
  exact Accepted.check_eq { hacc with
    one_le := hcount
    maxIterations_eq := Int.toNat_of_nonneg (by omega) }

/-- In exact arithmetic the bound on the variables is not zero when `mux` is positive. -/
theorem Options.Accepted.bound_ne_zero {o : Options Exact} {c : Settings Exact} (h : o.Accepted c)
    (hmux : 0 < o.mux) : (o.mux * o.mu == 0) = false := by
  obtain ⟨mux, hmux, hmuxpos⟩ := Exact.zero_lt_iff.mp hmux
  obtain ⟨mu, hmu, hmupos⟩ := Exact.zero_lt_iff.mp h.mu_pos
  rw [hmux, ← h.mu_eq, hmu, Exact.mul_coe, Exact.zero_eq, Exact.beq_coe, decide_eq_false_iff_not]
  exact (mul_pos hmuxpos hmupos).ne'

/-- Over any scalar: let a run with accepted options use up its iterations, and leave its variables not
below the bound, which is not zero, and its bound multipliers positive.  A solver, whatever it was used
for before, goes on from there with `more` iterations; and a run with the iterations of both from the
first start comes to the same. -/
theorem Newton.joins_of_bound_ne_zero (w w₁ w₂ : Newton α) (p : Problem α n m) {o : Options α}
    {c : Settings α} (ho : o.check = .ok c) (hbound : (o.mux * o.mu == 0) = false) (s : Start α)
    {first : Run α n m} {w' : Newton α} (hfirst : w.solve p o s = .ok (first, w'))
    (hlimit : first.report.status = .iterationLimit)
    (hx : ∀ i, Scalar.AtLeast (first.final.x i) (o.mux * o.mu))
    (hz : ∀ i, Scalar.lt 0 (first.final.z i) = true) {more : Int} (hmore : 1 ≤ more) :
    ∃ rest w₁' whole w₂',
      w₁.solve p { o with maxIterations := more } first.final.toStart = .ok (rest, w₁') ∧
      w₂.solve p { o with maxIterations := o.maxIterations + more } s = .ok (whole, w₂') ∧
      whole.Joins first rest o.maxIterations := by
  have hacc := Options.accepted_of_check ho
  have hone := hacc.one_le
  have hmax := hacc.maxIterations_eq
  have hsum : (o.maxIterations + more).toNat = c.maxIterations + more.toNat := by omega
  obtain ⟨w₀', hw₀⟩ := w.solve_eq_ok p ho s
  obtain ⟨w₁', hw₁⟩ := w₁.solve_eq_ok p (Options.check_of_maxIterations ho hmore)
    first.final.toStart
  have htogether : 1 ≤ o.maxIterations + more := by omega
  obtain ⟨w₂', hw₂⟩ := w₂.solve_eq_ok p (Options.check_of_maxIterations ho htogether) s
  rw [hsum] at hw₂
  refine ⟨_, w₁', _, w₂', hw₁, hw₂, ?_⟩
  obtain ⟨rfl, rfl⟩ := Prod.mk.inj (Except.ok.inj (hfirst.symm.trans hw₀))
  set first := (p.run c w.kkt s).1
  have hcourse : Course p c c.maxIterations first.start first.updates first.ending :=
    p.course_run c w.kkt s
  have hending : first.ending = .iterationLimit := by
    change first.ending.status = .iterationLimit at hlimit
    cases he : first.ending <;> simp_all [Ending.status]
  have hall : ∀ t ∈ first.visited, t.values = p.evaluate t.x :=
    hcourse.forall_of_follows rfl fun _ _ hfollow _ => hfollow.values_eq
  have hvalues := hall _ first.final_mem_visited
  -- the second run starts from the state that the first one left
  have hgoes : (first.final.toStart.iterate c.mu c.mux n m).evaluate p = first.final := by
    rw [hacc.mu_eq, hacc.mux_eq, Iterate.iterate_toStart_of_atLeast _ hbound hx hz]
    generalize first.final = t at hvalues
    obtain ⟨u, values⟩ := t
    exact congrArg (State.mk u) hvalues.symm
  have hjoins := hcourse.joins hending
    (p.course_run_of_maxIterations c more.toNat w₁.kkt first.final.toStart) hgoes
    (p.course_run_of_maxIterations c (c.maxIterations + more.toNat) w₂.kkt s) rfl
  rwa [hmax] at hjoins

/-- **Stopping and going on is running through.**  Let a run with accepted options and a positive `mux`
use up its iterations, and leave no variable below the bound and every bound multiplier positive.  A
solver, whatever it was used for before, goes on from there with `more` iterations; and a run with the
iterations of both from the first start comes to the same. -/
theorem Newton.joins_of_solve (w w₁ w₂ : Newton Exact) (p : Problem Exact n m) {o : Options Exact}
    {c : Settings Exact} (ho : o.check = .ok c) (hmux : 0 < o.mux) (s : Start Exact)
    {first : Run Exact n m} {w' : Newton Exact} (hfirst : w.solve p o s = .ok (first, w'))
    (hlimit : first.report.status = .iterationLimit)
    (hx : ∀ i, o.mux * o.mu ≤ first.final.x i) (hz : ∀ i, 0 < first.final.z i) {more : Int}
    (hmore : 1 ≤ more) :
    ∃ rest w₁' whole w₂',
      w₁.solve p { o with maxIterations := more } first.final.toStart = .ok (rest, w₁') ∧
      w₂.solve p { o with maxIterations := o.maxIterations + more } s = .ok (whole, w₂') ∧
      whole.Joins first rest o.maxIterations := by
  have hbound := (Options.accepted_of_check ho).bound_ne_zero hmux
  have hatLeast : ∀ i, Scalar.AtLeast (first.final.x i) (o.mux * o.mu) := fun i =>
    Exact.atLeast_iff.mpr (hx i)
  exact joins_of_bound_ne_zero w w₁ w₂ p ho hbound s hfirst hlimit hatLeast hz hmore

/-! ### Down a slope -/

/-- One iteration only, after which no residual is small enough. -/
noncomputable def oneIteration : Options Exact :=
  { (Options.default : Options Exact) with tolerance := 0, maxIterations := 1 }

theorem exists_check_oneIteration : ∃ c, oneIteration.check = .ok c ∧ c.scheme = .exact ∧
    c.method = .fullspace := by
  obtain ⟨c, hc⟩ := Options.exists_check_default
  have hacc := Options.accepted_of_check hc
  obtain ⟨hscheme, hmethod⟩ := Options.choices_of_check_default hc
  exact ⟨{ c with tolerance := 0, maxIterations := 1 }, Options.Accepted.check_eq { hacc with
    one_le := le_rfl
    maxIterations_eq := rfl
    tolerance_eq := rfl }, hscheme, hmethod⟩

/-- All data of a slope are real. -/
theorem realData_slope {s : State Exact 1 0} (hvalues : s.values = slope.evaluate s.x) :
    s.RealData slope .exact (.dense (Mat.ofMatrix 0)) 1 0 0 := by
  refine ⟨⟨?_, Vec.ext fun j => j.elim0, Vec.ext fun j => j.elim0⟩, ?_⟩
  · rw [hvalues]
    apply Vec.ext
    intro i
    simp [Problem.evaluate, slope]
  · have hzero : (slope.hessian s.x s.values.gradient).toMat = Mat.ofReal 0 := by
      apply Mat.ext_apply
      intro i j
      simp [slope, Hessian.toMat]
    rw [HessianScheme.apply, hzero, Hessian.exact, Mat.toMatrix_ofMatrix]

/-- Its Newton systems are invertible. -/
theorem isUnit_system_slope {u : Iterate ℝ 1 0} (hx : ∀ i, 0 < u.x i) (hz : ∀ i, 0 < u.z i) :
    IsUnit (u.system (.dense (Mat.ofMatrix 0)) 0).blockMatrix := by
  rw [Kkt.System.isUnit_blockMatrix_iff_row hx hz]
  · exact linearIndependent_empty_type
  · intro v
    simp [Iterate.system, Hessian.matrix]

/-- There is a direction at every real state of a slope. -/
theorem newton?_slope_ne_none {c : Settings Exact} (hscheme : c.scheme = .exact)
    (hmethod : c.method = .fullspace) {mu : ℝ} (hmu : c.mu = mu) {s : State Exact 1 0}
    {u : Iterate ℝ 1 0} (hs : s.IsAt u) (hvalues : s.values = slope.evaluate s.x) :
    slope.newton? c s ≠ none := by
  have hreal : s.RealData slope c.scheme (.dense (Mat.ofMatrix 0)) 1 0 0 := by
    rw [hscheme]
    exact realData_slope hvalues
  rw [Problem.newton?_ne_none_iff hs (hreal.system_eq hs) (hmu ▸ hreal.rhs_eq hs mu), hmethod]
  exact ⟨isUnit_system_slope hs.x_pos hs.z_pos, nofun⟩

/-- No residual is below a tolerance of zero. -/
theorem State.passes_eq_false {c : Settings Exact} (htol : c.tolerance = 0) {mu : ℝ}
    (hmu : c.mu = mu) {s : State Exact n m} {u : Iterate ℝ n m} (hs : s.IsAt u)
    (hfinite : s.values.isFinite = true) : s.passes c = false := by
  rw [Bool.eq_false_iff]
  intro hpass
  have hx : s.x.isFinite = true := by rw [hs.x_eq, Vec.isFinite_ofReal]
  have hz : s.z.isFinite = true := by rw [hs.z_eq, Vec.isFinite_ofReal]
  have hall := (Residuals.worst_lt_iff (State.isFinite_feasibility hfinite c.mu)
    (State.isFinite_centrality hx hz (by rw [hmu, Exact.isFinite_coe]))).mp hpass
  have hcentrality := hall.2.2
  rw [htol, Exact.zero_eq, hmu, residuals, hs.complementarity_eq, Vec.normInf_ofReal_lt_iff]
    at hcentrality
  exact lt_irrefl 0 hcentrality.1

/-- A run of one iteration down a slope uses it up, and keeps its share of the variable. -/
theorem limit_of_solve_slope {c : Settings Exact} (hc : oneIteration.check = .ok c)
    (hscheme : c.scheme = .exact) (hmethod : c.method = .fullspace) {run : Run Exact 1 0}
    (hrun : run.OverReals slope c) :
    run.report.status = .iterationLimit ∧ slope.Follows c run.start run.final := by
  have hacc := Options.accepted_of_check hc
  obtain ⟨mu, tau, hmu, htau, hmupos, htaupos, htaulr⟩ := hacc.exists_real
  obtain ⟨u, hu⟩ := hrun.exists_isAt _ run.start_mem_visited
  obtain ⟨d, hd⟩ := Option.ne_none_iff_exists'.mp
    (newton?_slope_ne_none hscheme hmethod hmu hu (hrun.values_eq _ run.start_mem_visited))
  have hmove : slope.Moves c run.start (slope.update c run.start d) := ⟨d, hd, rfl⟩
  obtain ⟨_, _, _, -, -, -, -, -, hv⟩ := hmove.exists_real hu htau htaupos htaulr
  have hvalues := hmove.follows.values_eq
  have hfinite : (slope.update c run.start d).state.values.isFinite = true := by
    rw [hvalues, hv.x_eq]
    simp [Problem.evaluate, Evaluation.isFinite, slope, Mat.isFinite_iff_forall]
  have hfail : (slope.update c run.start d).state.passes c = false :=
    State.passes_eq_false hacc.tolerance_eq hmu hv hfinite
  have hone : c.maxIterations = 0 + 1 := by
    have := hacc.maxIterations_eq
    simp only [oneIteration] at this
    omega
  have hcourse := hrun.course
  rw [hone] at hcourse
  obtain ⟨vs, hvs, hrest⟩ := hcourse.of_moves_fails hmove hfinite hfail
  obtain ⟨s, us, e⟩ := run
  obtain rfl : us = slope.update c s d :: vs := hvs
  cases hrest
  exact ⟨rfl, hmove.follows⟩

/-- A point up the slope. -/
noncomputable def slopeTop : Iterate ℝ 1 0 := ⟨Vec.of 1, Vec.of 0, Vec.of 1⟩

/-- One iteration down a slope, gone on with by another two. -/
theorem Newton.joins_of_solve_slope :
    ∃ c, oneIteration.check = .ok c ∧ 0 < oneIteration.mux ∧
      ∃ first w', ({} : Newton Exact).solve slope oneIteration slopeTop.toStart.exact =
          .ok (first, w') ∧
        first.report.status = .iterationLimit ∧
        (∀ i, oneIteration.mux * oneIteration.mu ≤ first.final.x i) ∧
        (∀ i, 0 < first.final.z i) ∧
        ∃ rest w₁' whole w₂',
          w'.solve slope { oneIteration with maxIterations := 2 } first.final.toStart =
            .ok (rest, w₁') ∧
          ({} : Newton Exact).solve slope { oneIteration with maxIterations := 3 }
            slopeTop.toStart.exact = .ok (whole, w₂') ∧
          whole.Joins first rest 1 := by
  obtain ⟨c, hc, hscheme, hmethod⟩ := exists_check_oneIteration
  have hacc := Options.accepted_of_check hc
  have hmux : oneIteration.mux = ((1 / 10 ^ 5 : ℝ) : Exact) :=
    congrArg Exact.real (by rw [Nat.cast_one])
  have hmu : oneIteration.mu = ((1 / 10 ^ 20 : ℝ) : Exact) :=
    congrArg Exact.real (by rw [Nat.cast_one])
  have htau : c.tau = ((99 / 10 ^ 2 : ℝ) : Exact) :=
    hacc.tau_eq.trans (congrArg Exact.real (by norm_num))
  obtain ⟨first, w', hw', hstart, hfirst⟩ :=
    Newton.overReals_of_solve {} slope hc Options.mux_default_pos slopeTop.toStart
  obtain ⟨hlimit, hfollow⟩ := limit_of_solve_slope hc hscheme hmethod hfirst
  rw [hmu, hmux, slopeTop.iterate_toStart (by simp [slopeTop]) (by norm_num [slopeTop])] at hstart
  obtain ⟨v, hv⟩ := hfirst.exists_isAt _ first.final_mem_visited
  have hx : ∀ i, oneIteration.mux * oneIteration.mu ≤ first.final.x i := by
    intro i
    obtain ⟨u, hu⟩ := hfirst.exists_isAt _ first.start_mem_visited
    have hkeeps := ((hfollow.keepsShare hu.interior hacc.tau_pos hacc.tau_lt_one).2 i).1
    have hone : first.start.x i = ((1 : ℝ) : Exact) := by
      rw [hstart]
      simp [Iterate.evaluate, Iterate.exact, slopeTop]
    rw [hone, htau, hv.x_eq, Vec.ofReal_apply, Exact.one_eq, Exact.sub_coe, Exact.mul_coe,
      Exact.coe_le_coe] at hkeeps
    rw [hmux, hmu, hv.x_eq, Vec.ofReal_apply, Exact.mul_coe, Exact.coe_le_coe]
    norm_num at hkeeps ⊢
    linarith
  exact ⟨c, hc, Options.mux_default_pos, first, w', hw', hlimit, hx, hv.interior.z_pos,
    joins_of_solve {} w' {} slope hc Options.mux_default_pos _ hw' hlimit hx hv.interior.z_pos
      (by decide : (1 : Int) ≤ 2)⟩

end Optimum

end GibbsNewton
