import GibbsNewton.Proofs.Optimum.Finite

/-!
# Runs stay in the interior

The start of a run is made positive, and the length of every step is chosen so that it stays so.
Nothing is asked of the problem: the direction may be any finite one.  The argument is an invariant
of one step, that variables and bound multipliers are positive reals, carried along the course of
the run.

## Main definitions

* `Start.exact` — a start of reals read as a start of exact values.
* `Iterate.Interior` — every variable and every bound multiplier is positive.

## Main results

* `Start.interior_iterate` — the iterate made of a real start is interior.
* `Problem.Follows.keepsShare`, `Problem.Follows.interior` — a step from an interior state leaves each
  entry its share, and so it leads to an interior state.
* `Newton.interior_of_solve` — **every state that a run visits is interior, and from each state to the
  next every variable and bound multiplier keeps the share `1 - tau`**.
-/

namespace GibbsNewton

variable {n m : ℕ}

/-! ### The start -/

/-- What holds of zero and of every entry of a list holds of the vector read from it. -/
theorem Vec.forall_sized {α : Type} [Scalar α] {P : α → Prop} {xs : List α} (h0 : P 0)
    (hxs : ∀ a ∈ xs, P a) (i : Fin n) : P (Vec.sized n xs i) := by
  unfold Vec.sized Vec.ofList?
  split
  next h =>
    subst h
    rw [Option.getD_some, Vec.ofList, Vec.of_apply]
    exact hxs _ (List.get_mem xs i)
  next h =>
    rw [Option.getD_none, Vec.const_apply]
    exact h0

namespace Optimum

/-- A start of reals read as a start of exact values. -/
def Start.exact (s : Start ℝ) : Start Exact where
  x := s.x.map Exact.real
  y := s.y.map Exact.real
  z := s.z.map Exact.real

/-- Every variable and every bound multiplier is positive. -/
structure Iterate.Interior (u : Iterate Exact n m) : Prop where
  /-- The variables are positive. -/
  x_pos : ∀ i, 0 < u.x i
  /-- The bound multipliers are positive. -/
  z_pos : ∀ i, 0 < u.z i

/-- The iterate made of a real start is interior, whatever the sizes and signs of its vectors. -/
theorem Start.interior_iterate (s : Start ℝ) {mu mux : Exact} (hmu : 0 < mu) (hmux : 0 < mux) :
    (s.exact.iterate mu mux n m).Interior := by
  obtain ⟨mu, rfl, hmu'⟩ := Exact.zero_lt_iff.mp hmu
  obtain ⟨mux, rfl, hmux'⟩ := Exact.zero_lt_iff.mp hmux
  have hreal : ∀ i, ∃ r : ℝ, Vec.sized n s.exact.x i = r :=
    Vec.forall_sized (P := fun a : Exact => ∃ r : ℝ, a = r) ⟨0, Exact.zero_eq⟩ (by simp [exact])
  have hx : ∀ i, 0 < (s.exact.iterate (mu : Exact) (mux : Exact) n m).x i := by
    intro i
    obtain ⟨r, hr⟩ := hreal i
    simp only [iterate, Vec.map_apply, hr, Exact.mul_coe, Exact.maximum_coe, Exact.zero_eq,
      Exact.coe_lt_coe]
    exact lt_max_of_lt_right (mul_pos hmux' hmu')
  refine ⟨hx, fun i => ?_⟩
  obtain ⟨r, hr, hpos⟩ := Exact.zero_lt_iff.mp (hx i)
  simp only [iterate, Vec.of_apply] at hr ⊢
  split
  next h => exact h
  next h =>
    rw [hr, Exact.div_coe _ hpos.ne', Exact.zero_eq, Exact.coe_lt_coe]
    exact div_pos hmu' hpos

/-! ### One step -/

/-- The entries of a positive vector are positive reals. -/
theorem exists_ofReal_of_pos {v : Vec Exact n} (h : ∀ i, 0 < v i) :
    ∃ w, v = Vec.ofReal w ∧ ∀ i, 0 < w i := by
  choose w hw hpos using fun i => Exact.zero_lt_iff.mp (h i)
  refine ⟨w, Vec.ext fun i => ?_, hpos⟩
  rw [hw i, Vec.ofReal_apply]

namespace Problem

variable {p : Problem Exact n m} {c : Settings Exact} {s t : State Exact n m}

/-- **One step.**  From an interior state, each variable and each bound multiplier keeps at least
the share `1 - tau` and stays positive. -/
theorem Follows.keepsShare (h : p.Follows c s t) (hs : s.Interior) (htau : 0 < c.tau)
    (htau1 : c.tau < 1) :
    t.Interior ∧ ∀ i, (1 - c.tau) * s.x i ≤ t.x i ∧ (1 - c.tau) * s.z i ≤ t.z i := by
  obtain ⟨d, hd, rfl⟩ := h
  obtain ⟨hfin, -, -⟩ := isFinite_of_newton? hd
  simp only [Kkt.Direction.isFinite, Bool.and_eq_true] at hfin
  obtain ⟨tau, htaueq, htau⟩ := Exact.zero_lt_iff.mp htau
  rw [htaueq, Exact.one_eq, Exact.coe_lt_coe] at htau1
  -- From here on every quantity that matters for positivity is real.
  obtain ⟨x, hx, hxpos⟩ := exists_ofReal_of_pos hs.x_pos
  obtain ⟨z, hz, hzpos⟩ := exists_ofReal_of_pos hs.z_pos
  obtain ⟨dx, hdx⟩ := Vec.isFinite_iff.mp hfin.1.1
  obtain ⟨dz, hdz⟩ := Vec.isFinite_iff.mp hfin.2
  obtain ⟨a, b, ha, hb, hxa, hzb⟩ :=
    Iterate.exists_safe_step hx hz hdx hdz hxpos hzpos htau c.uniform
  rw [← htaueq] at hxa hzb
  change (p.update c s d).state.x = _ at hxa
  change (p.update c s d).state.z = _ at hzb
  refine ⟨⟨fun i => ?_, fun i => ?_⟩, fun i => ?_⟩
  · rw [hxa]
    exact (ha.exact hxpos htau1 i).1
  · rw [hzb]
    exact (hb.exact hzpos htau1 i).1
  · rw [hxa, hzb, hx, hz, htaueq]
    exact ⟨(ha.exact hxpos htau1 i).2, (hb.exact hzpos htau1 i).2⟩

theorem Follows.interior (h : p.Follows c s t) (hs : s.Interior) (htau : 0 < c.tau)
    (htau1 : c.tau < 1) : t.Interior :=
  (h.keepsShare hs htau htau1).1

end Problem

/-! ### Whole runs -/

/-- **Runs stay in the interior.**  With accepted options and a positive bound on the start, a solver
answers a run; every state that it visits, the one it may have given up in included, is interior, and
from each state to the next every variable and every bound multiplier keeps at least the share
`1 - tau` of its value. -/
theorem Newton.interior_of_solve (w : Newton Exact) (p : Problem Exact n m) {o : Options Exact}
    {c : Settings Exact} (ho : o.check = .ok c) (hmux : 0 < o.mux) (s : Start ℝ) :
    ∃ run w', w.solve p o s.exact = .ok (run, w') ∧
      run.start = (s.exact.iterate o.mu o.mux n m).evaluate p ∧
      (∀ u ∈ run.visited, ∀ i, 0 < u.x i ∧ 0 < u.z i) ∧
      run.visited.IsChain fun u v =>
        ∀ i, (1 - o.tau) * u.x i ≤ v.x i ∧ (1 - o.tau) * u.z i ≤ v.z i := by
  obtain ⟨w', hw'⟩ := w.solve_eq_ok p ho s.exact
  have hacc := Options.accepted_of_check ho
  rw [← hacc.mux_eq] at hmux
  rw [← hacc.mu_eq, ← hacc.mux_eq, ← hacc.tau_eq]
  have hcourse := p.course_run c w.kkt s.exact
  have hstart : (s.exact.iterate c.mu c.mux n m).Interior := s.interior_iterate hacc.mu_pos hmux
  have hall : ∀ u ∈ (p.run c w.kkt s.exact).1.visited, u.Interior :=
    hcourse.forall_of_follows hstart fun _ _ hfollow hu =>
      hfollow.interior hu hacc.tau_pos hacc.tau_lt_one
  refine ⟨_, w', hw', rfl, fun u hu i => ⟨(hall u hu).x_pos i, (hall u hu).z_pos i⟩, ?_⟩
  -- The invariant is at hand at each state of the chain, and with it the share that a step keeps.
  exact hcourse.isChain.imp_of_mem_imp fun u v hu _ hfollow =>
    (hfollow.keepsShare (hall u hu) hacc.tau_pos hacc.tau_lt_one).2

/-- The options when nothing is asked for pass the check. -/
theorem Options.exists_check_default : ∃ c, (Options.default : Options Exact).check = .ok c := by
  have hscheme : HessianScheme.ofName? "exact" = some .exact := by decide
  have hmethod : Kkt.Method.ofName? "fullspace" = some .fullspace := by decide
  have htau : (99 : ℝ) / 10 ^ 2 < 1 := by norm_num
  unfold check default
  simp only [hscheme, hmethod]
  rw [if_neg (by decide), if_neg (by simp [Scalar.decimal]), if_neg (by simp [Scalar.decimal, htau])]
  exact ⟨_, rfl⟩

/-- The choices that are made when nothing is asked for. -/
theorem Options.choices_of_check_default {c : Settings Exact}
    (hc : (Options.default : Options Exact).check = .ok c) : c.scheme = .exact ∧ c.method = .fullspace := by
  have hscheme : HessianScheme.ofName? "exact" = some .exact := by decide
  have hmethod : Kkt.Method.ofName? "fullspace" = some .fullspace := by decide
  have hacc := Options.accepted_of_check hc
  exact ⟨Option.some.inj (hacc.scheme_eq.symm.trans hscheme),
    Option.some.inj (hacc.method_eq.symm.trans hmethod)⟩

theorem Options.mu_default : (Options.default : Options Exact).mu = ((1 / 10 ^ 20 : ℝ) : Exact) :=
  congrArg Exact.real (by rw [Nat.cast_one])

theorem Options.mux_default : (Options.default : Options Exact).mux = ((1 / 10 ^ 5 : ℝ) : Exact) :=
  congrArg Exact.real (by rw [Nat.cast_one])

theorem Options.tau_default : (Options.default : Options Exact).tau = ((99 / 10 ^ 2 : ℝ) : Exact) :=
  congrArg Exact.real (by norm_num)

theorem Options.tolerance_default_pos : 0 < (Options.default : Options Exact).tolerance :=
  Exact.zero_lt_iff.mpr ⟨_, rfl, by positivity⟩

/-- A linear objective of one variable, without constraints. -/
noncomputable def slope : Problem Exact 1 0 where
  objective x := x 0
  gradient _ := Vec.const 1 1
  hessian _ _ := .diagonal (Vec.const 1 0)
  constraint _ := Vec.const 0 0
  jacobian _ := Mat.of fun _ _ => 0

/-- The run down a slope from a point outside, of the wrong size in its bound multipliers. -/
theorem Newton.interior_of_solve_slope :
    ∃ c, (Options.default : Options Exact).check = .ok c ∧ 0 < (Options.default : Options Exact).mux ∧
      ∃ run w', ({} : Newton Exact).solve slope Options.default (Start.exact ⟨[-3], [], [1, 2]⟩) =
          .ok (run, w') ∧
        run.start = ((Start.exact ⟨[-3], [], [1, 2]⟩).iterate (Options.default : Options Exact).mu
          Options.default.mux 1 0).evaluate slope ∧
        (∀ u ∈ run.visited, ∀ i, 0 < u.x i ∧ 0 < u.z i) ∧
        run.visited.IsChain fun u v => ∀ i,
          (1 - Options.default.tau) * u.x i ≤ v.x i ∧ (1 - Options.default.tau) * u.z i ≤ v.z i := by
  obtain ⟨c, hc⟩ := Options.exists_check_default
  have hmux : 0 < (Options.default : Options Exact).mux := by
    rw [Exact.zero_lt_iff]
    exact ⟨_, rfl, by positivity⟩
  exact ⟨c, hc, hmux, interior_of_solve {} slope hc hmux ⟨[-3], [], [1, 2]⟩⟩

end Optimum

end GibbsNewton
