import GibbsNewton.Proofs.Optimum.Coordinates

/-!
# Strictly interior starts

A run begins at an iterate made of whatever a caller gives: its variables are raised to a bound, which is
a multiple of the barrier parameter, and bound multipliers that are not positive are replaced by central
ones, which are quotients by the variables.  This puts the iterate strictly inside, and leaves alone what
was there already, if the multiple is positive.  Options with another multiple are accepted all the same.
Then the bound keeps nothing away from the boundary, and the iterate is strictly inside only if the
variables were before.

## Main definitions

* `Start.StrictlyInside` — what the iterate made of a start should be.

## Main results

* `Start.strictlyInside_of_raised_pos` — it is so where the raised variables are positive.
* `Start.strictlyInside_iff` — **with accepted options, it is so exactly if the multiple is positive or
  the variables are.**
* `Start.not_strictlyInside_empty` — with no multiple at all, no start at all is at the boundary.
-/

namespace GibbsNewton

namespace Optimum

variable {n m : ℕ}

/-- What the iterate made of a start should be, at a barrier parameter and a multiple of it: strictly
inside and not below the bound, made without a division by zero, with the entries of the start where
these do as they are, and its own iterate when it is taken as a start again. -/
structure Start.StrictlyInside (s : Start ℝ) (mu mux : Exact) (n m : ℕ) : Prop where
  bound_le : ∀ i, mux * mu ≤ (s.exact.iterate mu mux n m).x i
  x_pos : ∀ i, 0 < (s.exact.iterate mu mux n m).x i
  z_pos : ∀ i, 0 < (s.exact.iterate mu mux n m).z i
  /-- The central multipliers are quotients by the variables. -/
  isFinite_div : ∀ i, Scalar.isFinite (mu / (s.exact.iterate mu mux n m).x i) = true
  x_eq : s.x.length = n → ∀ (i : Fin n) (a : ℝ), s.x[i]? = some a → mux * mu ≤ (a : Exact) → 0 < a →
    (s.exact.iterate mu mux n m).x i = a
  y_eq : s.y.length = m → ∀ (i : Fin m) (a : ℝ), s.y[i]? = some a →
    (s.exact.iterate mu mux n m).y i = a
  z_eq : s.z.length = n → ∀ (i : Fin n) (a : ℝ), s.z[i]? = some a → 0 < a →
    (s.exact.iterate mu mux n m).z i = a
  again : (s.exact.iterate mu mux n m).toStart.iterate mu mux n m = s.exact.iterate mu mux n m

/-- The entries of a list that is read as a vector of its own size. -/
theorem Vec.getD_ofList?_apply {xs : List ℝ} (h : xs.length = n) {i : Fin n} {a : ℝ}
    (ha : xs[i]? = some a) : ((Vec.ofList? n xs).getD (Vec.of 0)) i = a := by
  subst h
  rw [Vec.ofList?_of_length rfl, Option.getD_some, Vec.of_apply]
  exact (List.getElem?_eq_some_iff.mp ha).2

namespace Start

/-- The variables of the iterate are raised to the bound, whether it is positive or not. -/
theorem iterate_exact_x (s : Start ℝ) (mu mux : ℝ) (i : Fin n) :
    (s.exact.iterate (mu : Exact) mux n m).x i = ((max ((s.sized n m).x i) (mux * mu) : ℝ) : Exact) := by
  unfold iterate exact sized
  simp only [Vec.sized_map_real]
  simp

/-- The iterate is strictly inside where the raised variables are positive. -/
theorem strictlyInside_of_raised_pos (s : Start ℝ) {mu mux : ℝ} (hmu : 0 < mu)
    (hpos : ∀ i, 0 < max ((s.sized n m).x i) (mux * mu)) : s.StrictlyInside mu mux n m := by
  have hiterate : s.exact.iterate (mu : Exact) mux n m = ((s.sized n m).raised mu mux).exact :=
    s.iterate_exact_of_ne_zero fun i => (hpos i).ne'
  have hz : ∀ i, 0 < ((s.sized n m).raised mu mux).z i := by
    intro i
    rw [Iterate.raised, Vec.of_apply]
    split
    next h => exact h
    next => exact div_pos hmu (hpos i)
  exact {
    bound_le := by
      intro i
      rw [iterate_exact_x, Exact.mul_coe, Exact.coe_le_coe]
      exact le_max_right _ _
    x_pos := by
      intro i
      rw [iterate_exact_x, Exact.zero_eq, Exact.coe_lt_coe]
      exact hpos i
    z_pos := by
      intro i
      rw [hiterate, Iterate.exact, Vec.ofReal_apply, Exact.zero_eq, Exact.coe_lt_coe]
      exact hz i
    isFinite_div := by
      intro i
      rw [iterate_exact_x, Exact.div_coe _ (hpos i).ne']
      exact Exact.isFinite_coe _
    x_eq := by
      intro hlength i a ha hbound _
      rw [Exact.mul_coe, Exact.coe_le_coe] at hbound
      have hentry : (s.sized n m).x i = a := Vec.getD_ofList?_apply hlength ha
      rw [iterate_exact_x, hentry, max_eq_left hbound]
    y_eq := by
      intro hlength i a ha
      have hentry : (s.sized n m).y i = a := Vec.getD_ofList?_apply hlength ha
      rw [hiterate, Iterate.exact, Vec.ofReal_apply, Iterate.raised, hentry]
    z_eq := by
      intro hlength i a ha hapos
      have hentry : (s.sized n m).z i = a := Vec.getD_ofList?_apply hlength ha
      rw [hiterate, Iterate.exact, Vec.ofReal_apply, Iterate.raised, Vec.of_apply, hentry, if_pos hapos]
    again := by
      rw [hiterate, Iterate.toStart_exact]
      refine Iterate.iterate_toStart _ hz fun i => ?_
      rw [Iterate.raised, Vec.of_apply]
      exact le_max_right _ _ }

/-- **When the iterate is strictly inside.**  With accepted options, whatever the start and its sizes, the
iterate made of it is what it should be exactly if the multiple of the barrier parameter is positive, or
else the variables given are positive, of the right size. -/
theorem strictlyInside_iff {o : Options Exact} {c : Settings Exact} (ho : o.check = .ok c) {mux : ℝ}
    (hmux : o.mux = mux) (s : Start ℝ) (n m : ℕ) :
    s.StrictlyInside o.mu o.mux n m ↔ 0 < mux ∨ ∀ i, 0 < (s.sized n m).x i := by
  have hacc := Options.accepted_of_check ho
  have hmu : 0 < o.mu := hacc.mu_eq ▸ hacc.mu_pos
  obtain ⟨mu, hmueq, hmupos⟩ := Exact.zero_lt_iff.mp hmu
  rw [hmueq, hmux]
  constructor
  · intro h
    by_contra hnot
    obtain ⟨hle, hsome⟩ := not_or.mp hnot
    obtain ⟨i, hi⟩ := not_forall.mp hsome
    have hbound : mux * mu ≤ 0 := mul_nonpos_of_nonpos_of_nonneg (not_lt.mp hle) hmupos.le
    have hx := h.x_pos i
    rw [iterate_exact_x, Exact.zero_eq, Exact.coe_lt_coe] at hx
    exact absurd hx (not_lt.mpr (max_le (not_lt.mp hi) hbound))
  · rintro (hpos | hpos)
    · exact s.strictlyInside_of_raised_pos hmupos fun _ => lt_max_of_lt_right (mul_pos hpos hmupos)
    · exact s.strictlyInside_of_raised_pos hmupos fun i => lt_max_of_lt_left (hpos i)

/-- Options with no multiple of the barrier parameter as a bound. -/
noncomputable def unbounded : Options Exact := { (Options.default : Options Exact) with mux := 0 }

theorem exists_check_unbounded : ∃ c, unbounded.check = .ok c := by
  obtain ⟨c, hc⟩ := Options.exists_check_default
  have hacc := Options.accepted_of_check hc
  exact ⟨{ c with mux := 0 }, Options.Accepted.check_eq { hacc with mux_eq := rfl }⟩

/-- Without a bound a start at a positive variable is taken as it is. -/
theorem strictlyInside_two :
    ∃ c, unbounded.check = .ok c ∧ unbounded.mux = ((0 : ℝ) : Exact) ∧
      (⟨[2], [], []⟩ : Start ℝ).StrictlyInside unbounded.mu unbounded.mux 1 0 := by
  obtain ⟨c, hc⟩ := exists_check_unbounded
  have hmux : unbounded.mux = ((0 : ℝ) : Exact) := Exact.zero_eq
  refine ⟨c, hc, hmux, (strictlyInside_iff hc hmux ⟨[2], [], []⟩ 1 0).mpr (.inr fun i => ?_)⟩
  have hentry : ((⟨[2], [], []⟩ : Start ℝ).sized 1 0).x i = 2 :=
    Vec.getD_ofList?_apply rfl (by simp [Fin.fin_one_eq_zero i])
  rw [hentry]
  exact two_pos

/-- **Accepted options do not suffice**: without a bound, a run that is given no start at all is left at
the boundary. -/
theorem not_strictlyInside_empty :
    ∃ c, unbounded.check = .ok c ∧
      ¬({} : Start ℝ).StrictlyInside unbounded.mu unbounded.mux 1 0 := by
  obtain ⟨c, hc⟩ := exists_check_unbounded
  refine ⟨c, hc, fun h => ?_⟩
  have hmux : unbounded.mux = ((0 : ℝ) : Exact) := Exact.zero_eq
  have hmu : unbounded.mu = ((1 / 10 ^ 20 : ℝ) : Exact) := Options.mu_default
  have hentry : (({} : Start ℝ).sized 1 0).x 0 = 0 := by simp [sized, Vec.ofList?]
  have hx := h.x_pos 0
  rw [hmux, hmu, iterate_exact_x, hentry, zero_mul, max_self, Exact.zero_eq, Exact.coe_lt_coe] at hx
  exact lt_irrefl 0 hx

end Start

end Optimum

end GibbsNewton
