import GibbsNewton.Proofs.Optimum.RealRun

/-!
# The longest safe step

The step-length rule does not only keep an iterate in the interior, it wastes nothing: no longer step
of at most full length would leave every entry its share.  The lengths that are safe for one vector
fill an interval that starts at zero, and the rule returns its right end.  So the lengths that are safe
for two vectors at once fill the shorter of two intervals, and the smaller of the two fractions is the
longest length common to both.

## Main definitions

* `safeLengths p dp tau` — the lengths, at most one, that leave every entry of `p` its share.
* `LongestSafe p dp tau a` — what there is to say of the length that the rule returns.

## Main results

* `safeLengths_eq_Icc` — the safe lengths are an interval.
* `longestSafe_boundaryFraction` — the rule returns the longest of them.
* `Optimum.Iterate.longest_safe_lengths` — **the fraction to the boundary is the longest safe length of
  a vector of any size, and both ways to move an iterate go exactly as far as is safe.**
-/

namespace GibbsNewton

variable {n m : ℕ} {p dp q dq : Fin n → ℝ} {tau a b : ℝ}

/-- The lengths, at most one, of the steps along `dp` that leave every entry of `p` its share. -/
def safeLengths (p dp : Fin n → ℝ) (tau : ℝ) : Set ℝ :=
  {t | 0 ≤ t ∧ t ≤ 1 ∧ KeepsShare p dp tau t}

/-- `a` is the longest safe length. -/
structure LongestSafe (p dp : Fin n → ℝ) (tau a : ℝ) : Prop where
  /-- There is room for a step. -/
  pos : 0 < a
  /-- The step is at most a full one. -/
  le_one : a ≤ 1
  /-- The share is a positive one. -/
  share_pos : ∀ i, 0 < (1 - tau) * p i
  /-- Every entry keeps it. -/
  keeps : ∀ i, (1 - tau) * p i ≤ p i + a * dp i
  /-- Every other safe length is at most as long. -/
  greatest : IsGreatest (safeLengths p dp tau) a
  /-- A shorter step than the full one takes some entry down to exactly its share. -/
  eq_one_or : a = 1 ∨ ∃ i, dp i < 0 ∧ p i + a * dp i = (1 - tau) * p i

/-- **The safe lengths are an interval**, with the fraction to the boundary as its right end. -/
theorem safeLengths_eq_Icc (hp : ∀ i, 0 < p i) (htau : 0 < tau) :
    safeLengths p dp tau = Set.Icc 0 (boundaryFraction p dp tau) := by
  apply Set.ext
  intro t
  constructor
  · rintro ⟨h0, h1, hkeeps⟩
    exact ⟨h0, (le_boundaryFraction_iff hp htau h0 h1).mpr hkeeps⟩
  · rintro ⟨h0, hle⟩
    have h1 : t ≤ 1 := hle.trans (boundaryFraction_le_one p dp tau)
    exact ⟨h0, h1, (le_boundaryFraction_iff hp htau h0 h1).mp hle⟩

theorem longestSafe_boundaryFraction (hp : ∀ i, 0 < p i) (htau : 0 < tau) (hlt : tau < 1) :
    LongestSafe p dp tau (boundaryFraction p dp tau) := by
  have hpos : 0 < boundaryFraction p dp tau := boundaryFraction_pos hp htau
  have hgreatest : IsGreatest (safeLengths p dp tau) (boundaryFraction p dp tau) := by
    rw [safeLengths_eq_Icc hp htau]
    exact isGreatest_Icc hpos.le
  exact
    { pos := hpos
      le_one := boundaryFraction_le_one p dp tau
      share_pos := fun i => mul_pos (sub_pos.mpr hlt) (hp i)
      keeps := hgreatest.1.2.2
      greatest := hgreatest
      eq_one_or := boundaryFraction_eq_one_or p dp tau }

/-- Without entries there is nothing to keep, and the step is a full one. -/
theorem LongestSafe.eq_one {p dp : Fin 0 → ℝ} (h : LongestSafe p dp tau a) : a = 1 := by
  rcases h.eq_one_or with hone | ⟨i, -⟩
  · exact hone
  · exact i.elim0

/-- The longest length that is safe for two vectors at once is the smaller of the two. -/
theorem isGreatest_common (hp : ∀ i, 0 < p i) (hq : ∀ i, 0 < q i) (htau : 0 < tau) :
    IsGreatest (safeLengths p dp tau ∩ safeLengths q dq tau)
      (min (boundaryFraction p dp tau) (boundaryFraction q dq tau)) := by
  rw [safeLengths_eq_Icc hp htau, safeLengths_eq_Icc hq htau, Set.Icc_inter_Icc, max_self]
  exact isGreatest_Icc (le_min (boundaryFraction_pos hp htau).le (boundaryFraction_pos hq htau).le)

namespace Optimum.Iterate

/-- The lengths of a step of a real iterate are the longest that are safe: for the variables, for the
bound multipliers, and for both at once. -/
structure LongestLengths (u : Iterate ℝ n m) (d : Kkt.Direction ℝ n m) (tau : ℝ)
    (t : StepLengths ℝ) : Prop where
  primal : LongestSafe ⇑u.x ⇑d.dx tau t.primal
  dual : LongestSafe ⇑u.z ⇑d.dz tau t.dual
  common : IsGreatest (safeLengths ⇑u.x ⇑d.dx tau ∩ safeLengths ⇑u.z ⇑d.dz tau) t.common

theorem longestLengths_reach {u : Iterate ℝ n m} (d : Kkt.Direction ℝ n m) (hx : ∀ i, 0 < u.x i)
    (hz : ∀ i, 0 < u.z i) (htau : 0 < tau) (hlt : tau < 1) : u.LongestLengths d tau (u.reach d tau) where
  primal := longestSafe_boundaryFraction hx htau hlt
  dual := longestSafe_boundaryFraction hz htau hlt
  common := isGreatest_common hx hz htau

/-- **The step length is exactly the longest safe one.**  For every positive vector and every direction
the fraction to the boundary is the longest length, at most one, that leaves every entry its share, and
the full step for a vector without entries.  So from a positive iterate the uniform way to move takes
the longest length that is safe for variables and bound multipliers at once, for all three vectors; the
other way takes the longest for each of the two, and the full step for the constraint multipliers. -/
theorem longest_safe_lengths (htau : 0 < tau) (hlt : tau < 1) :
    (∀ {k : ℕ} (p dp : Fin k → ℝ), (∀ i, 0 < p i) →
      ∃ a : ℝ, fractionToBoundary (Vec.ofReal p) (Vec.ofReal dp) (tau : Exact) = a ∧
        LongestSafe p dp tau a ∧ (k = 0 → a = 1)) ∧
    ∀ {n m : ℕ} (u : Iterate ℝ n m) (d : Kkt.Direction ℝ n m),
      (∀ i, 0 < u.x i) → (∀ i, 0 < u.z i) →
      ∃ t : StepLengths ℝ, u.exact.lengths d.exact tau = t.exact ∧ u.LongestLengths d tau t ∧
        u.exact.step d.exact t.exact true =
          ⟨Vec.ofReal (⇑u.x + t.common • ⇑d.dx), Vec.ofReal (⇑u.y + t.common • ⇑d.dy),
            Vec.ofReal (⇑u.z + t.common • ⇑d.dz)⟩ ∧
        u.exact.step d.exact t.exact false =
          ⟨Vec.ofReal (⇑u.x + t.primal • ⇑d.dx), Vec.ofReal (⇑u.y + ⇑d.dy),
            Vec.ofReal (⇑u.z + t.dual • ⇑d.dz)⟩ := by
  constructor
  · intro k p dp hp
    have hlongest : LongestSafe p dp tau (boundaryFraction p dp tau) :=
      longestSafe_boundaryFraction hp htau hlt
    refine ⟨_, fractionToBoundary_ofReal p dp tau, hlongest, ?_⟩
    rintro rfl
    exact hlongest.eq_one
  · intro n m u d hx hz
    refine ⟨u.reach d tau, u.lengths_exact d tau, longestLengths_reach d hx hz htau hlt, ?_, ?_⟩
    · rw [step_exact]
      simp [exact, moved, StepLengths.along]
    · rw [step_exact]
      simp [exact, moved, StepLengths.along]

/-- Of two entries `1` and `2` that change by `-1` and by `1`, the first may lose half of itself.  When
a variable `1` changes by `-1` and its multiplier `1` by `-2`, a quarter of the step is safe for both. -/
theorem longest_safe_lengths_half :
    fractionToBoundary (Vec.ofReal ![1, 2]) (Vec.ofReal ![-1, 1]) ((1 / 2 : ℝ) : Exact) =
        (1 / 2 : ℝ) ∧
      ((⟨Vec.of ![1], Vec.of ![], Vec.of ![1]⟩ : Iterate ℝ 1 0).exact.lengths
        (⟨Vec.of ![-1], Vec.of ![], Vec.of ![-2]⟩ : Kkt.Direction ℝ 1 0).exact
          ((1 / 2 : ℝ) : Exact)).common = ((1 / 4 : ℝ) : Exact) := by
  obtain ⟨hvector, hiterate⟩ :=
    longest_safe_lengths (show (0 : ℝ) < 1 / 2 by norm_num) (by norm_num)
  constructor
  · obtain ⟨a, ha, hlongest, -⟩ := hvector ![1, 2] ![-1, 1] (by simp [Fin.forall_fin_two])
    have hhalf : IsGreatest (safeLengths ![1, 2] ![-1, 1] (1 / 2)) (1 / 2) := by
      constructor
      · refine ⟨by norm_num, by norm_num, ?_⟩
        simp [KeepsShare, Fin.forall_fin_two]
        norm_num
      · rintro t ⟨-, -, hkeeps⟩
        have hfirst := hkeeps 0
        simp at hfirst
        linarith
    rw [ha, hlongest.greatest.unique hhalf]
  · obtain ⟨t, ht, hlongest, -⟩ := hiterate ⟨Vec.of ![1], Vec.of ![], Vec.of ![1]⟩
      ⟨Vec.of ![-1], Vec.of ![], Vec.of ![-2]⟩ (by simp) (by simp)
    have hquarter : IsGreatest (safeLengths (![1] : Fin 1 → ℝ) ![-1] (1 / 2) ∩
        safeLengths (![1] : Fin 1 → ℝ) ![-2] (1 / 2)) (1 / 4) := by
      constructor
      · refine ⟨⟨by norm_num, by norm_num, ?_⟩, by norm_num, by norm_num, ?_⟩
        · intro i
          simp [Fin.fin_one_eq_zero i]
          norm_num
        · intro i
          simp [Fin.fin_one_eq_zero i]
          norm_num
      · rintro t ⟨-, -, -, hkeeps⟩
        have hdual := hkeeps 0
        simp at hdual
        linarith
    have hcommon := hlongest.common
    simp only [Vec.get_of] at hcommon
    rw [ht, StepLengths.exact, hcommon.unique hquarter]

end Optimum.Iterate

end GibbsNewton
