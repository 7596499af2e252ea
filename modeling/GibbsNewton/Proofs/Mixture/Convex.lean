import GibbsNewton.Proofs.Mixture.Real
import Mathlib.Algebra.Order.BigOperators.Ring.Finset

/-!
# The Gibbs energy is convex

Above the floor the Gibbs energy lies above each of its tangents, the gradient being the chemical
potential.  Phase by phase this is Gibbs' inequality: a mixture at its own composition is never worse
off than with the activities of another one.  In the same way the second derivatives without the floor
are nonnegative along every direction, at all amounts: phase by phase they are a sum of squares.  How the
species are shared out among the phases does not matter for either.

## Main results

* `Phase.activity_le` — Gibbs' inequality in one phase.
* `Mixture.tangent_le_gibbs` — **the Gibbs energy lies above its tangents.**
* `Mixture.dotProduct_secondDerivatives` — the second derivative along a direction is a sum of squares.
* `Mixture.secondDerivatives_nonneg` — **the second derivatives without the floor are nonnegative.**
-/

namespace GibbsNewton

open Matrix

variable {n : ℕ}

/-! ### Energies -/

/-- **Gibbs' inequality in one phase**: its activities at amounts `a` are, weighted with amounts `b`,
at most those at `b`. -/
theorem Phase.activity_le (q : Phase n) {a b : Fin n → ℝ} (ha : ∀ i, 0 < a i) (hb : ∀ i, 0 < b i)
    (p : ℝ) : ∑ i ∈ q.members, b i * q.activity a p i ≤ ∑ i ∈ q.members, b i * q.activity b p i := by
  cases hmixed : q.isMixed with
  | false => simp [activity, hmixed]
  | true =>
    have hne : q.species ≠ [] := by
      rintro hnil
      simp [isMixed, hnil] at hmixed
    obtain ⟨i₀, hi₀⟩ := List.exists_mem_of_ne_nil _ hne
    have hA : 0 < q.amount a := amount_pos ha hi₀
    have hB : 0 < q.amount b := amount_pos hb hi₀
    -- a logarithm is below its tangent at one
    have hterm : ∀ i, b i * q.activity a p i ≤
        b i * q.activity b p i + (q.amount b / q.amount a * a i - b i) := by
      intro i
      have hratio : 0 < a i / q.amount a * (q.amount b / b i) :=
        mul_pos (div_pos (ha i) hA) (div_pos hB (hb i))
      have hlog := Real.log_le_sub_one_of_pos hratio
      rw [Real.log_mul (div_pos (ha i) hA).ne' (div_pos hB (hb i)).ne',
        Real.log_div (ha i).ne' hA.ne', Real.log_div hB.ne' (hb i).ne'] at hlog
      have hscaled : b i * (a i / q.amount a * (q.amount b / b i) - 1) =
          q.amount b / q.amount a * a i - b i := by
        have hbi := (hb i).ne'
        field_simp
      have hweighted := mul_le_mul_of_nonneg_left hlog (hb i).le
      simp only [activity, hmixed, if_true]
      linarith
    have htotal : ∑ i ∈ q.members, (q.amount b / q.amount a * a i - b i) = 0 := by
      rw [Finset.sum_sub_distrib, ← Finset.mul_sum]
      change q.amount b / q.amount a * q.amount a - q.amount b = 0
      rw [div_mul_cancel₀ _ hA.ne', sub_self]
    calc ∑ i ∈ q.members, b i * q.activity a p i
        ≤ ∑ i ∈ q.members, (b i * q.activity b p i + (q.amount b / q.amount a * a i - b i)) :=
          Finset.sum_le_sum fun i _ => hterm i
      _ = ∑ i ∈ q.members, b i * q.activity b p i := by
          rw [Finset.sum_add_distrib, htotal, add_zero]

/-- In one phase, the changes `v` weighted with how far the relative change of each species is from that
of the phase add up to squares. -/
theorem Phase.sum_mul_sub_share (q : Phase n) {s : Fin n → ℝ} (hs : ∀ i, 0 < s i) (v : Fin n → ℝ) :
    ∑ i ∈ q.members, v i * (v i / s i - q.amount v / q.amount s) =
      ∑ i ∈ q.members, s i * (v i / s i - q.amount v / q.amount s) ^ 2 := by
  rcases q.members.eq_empty_or_nonempty with hempty | hne
  · simp [hempty]
  have hamount : q.amount s ≠ 0 := (Finset.sum_pos (fun i _ => hs i) hne).ne'
  have hterm : ∀ i, v i * (v i / s i - q.amount v / q.amount s) =
      s i * (v i / s i - q.amount v / q.amount s) ^ 2 +
        q.amount v / q.amount s * (v i - q.amount v / q.amount s * s i) := by
    intro i
    have hi := (hs i).ne'
    field_simp
    ring
  have hrest : ∑ i ∈ q.members, (v i - q.amount v / q.amount s * s i) = 0 := by
    rw [Finset.sum_sub_distrib, ← Finset.mul_sum]
    change q.amount v - q.amount v / q.amount s * q.amount s = 0
    rw [div_mul_cancel₀ _ hamount, sub_self]
  rw [Finset.sum_congr rfl fun i _ => hterm i, Finset.sum_add_distrib, ← Finset.mul_sum, hrest, mul_zero,
    add_zero]

namespace Mixture

variable {x : Mixture ℝ n} {a b : Fin n → ℝ}

theorem activity_of_mem {q : Phase n} (hq : q ∈ x.phases) {i : Fin n} (hi : i ∈ q.members) :
    x.activity a i = q.activity (x.seen a) x.logPressure i := by
  rw [activity, phaseOf_eq hq (Phase.mem_members.mp hi)]

/-- **The Gibbs energy lies above its tangents** wherever no amount is below the floor. -/
theorem tangent_le_gibbs (ha : x.Above a) (hb : x.Above b) :
    x.gibbs a + x.chemicalPotential a ⬝ᵥ (b - a) ≤ x.gibbs b := by
  have hphase : ∀ q ∈ x.phases, 0 ≤ ∑ i ∈ q.members, b i * (x.activity b i - x.activity a i) := by
    intro q hq
    have hactivity : ∀ {c : Fin n → ℝ}, x.Above c →
        ∑ i ∈ q.members, b i * x.activity c i =
          ∑ i ∈ q.members, b i * q.activity c x.logPressure i := by
      intro c hc
      apply Finset.sum_congr rfl
      intro i hi
      rw [activity_of_mem hq hi, seen_of_above hc]
    simp only [mul_sub, Finset.sum_sub_distrib, hactivity ha, hactivity hb]
    exact sub_nonneg.mpr (q.activity_le (fun i => (ha i).1) (fun i => (hb i).1) x.logPressure)
  have hsum := x.sum_nonneg_of_phases hphase
  have hgap : x.gibbs b - (x.gibbs a + x.chemicalPotential a ⬝ᵥ (b - a)) =
      ∑ i, b i * (x.activity b i - x.activity a i) := by
    rw [gibbs, gibbs, dotProduct_sub, dotProduct_comm a, add_sub_cancel,
      dotProduct_comm (x.chemicalPotential a), ← dotProduct_sub, dotProduct]
    apply Finset.sum_congr rfl
    intro i _
    rw [Pi.sub_apply, chemicalPotential, chemicalPotential, add_sub_add_left_eq_sub]
  linarith

/-! ### Second derivatives -/

/-- The second derivatives applied to a direction, in the phase of a species. -/
theorem secondDerivatives_mulVec {q : Phase n} (hq : q ∈ x.phases) {i : Fin n} (hi : i ∈ q.members)
    (v : Fin n → ℝ) :
    (x.secondDerivatives a *ᵥ v) i =
      if q.isMixed then v i / x.seen a i - q.amount v / q.amount (x.seen a) else 0 := by
  have hrow : ∀ j, x.secondDerivatives a i j = if q.isMixed ∧ j ∈ q.members then
      (if i = j then 1 / x.seen a i else 0) - 1 / q.amount (x.seen a) else 0 := by
    intro j
    rw [secondDerivatives, Matrix.of_apply, phaseOf_eq hq (Phase.mem_members.mp hi)]
    simp
  simp only [mulVec, dotProduct, hrow]
  cases hmixed : q.isMixed with
  | false => simp
  | true =>
    simp only [true_and, if_true, ite_mul, zero_mul, sub_mul, Finset.sum_ite_mem, Finset.univ_inter,
      Finset.sum_sub_distrib, Finset.sum_ite_eq, if_pos hi, ← Finset.mul_sum]
    rw [one_div_mul_eq_div, one_div_mul_eq_div]
    rfl

/-- The second derivatives in two species do not depend on their order. -/
theorem secondDerivatives_transpose (x : Mixture ℝ n) (a : Fin n → ℝ) :
    (x.secondDerivatives a)ᵀ = x.secondDerivatives a := by
  have hsymm : ∀ i j, j ∈ (x.phaseOf i).species → x.phaseOf j = x.phaseOf i := fun i _ hj =>
    phaseOf_eq (x.phaseOf_mem i) hj
  ext i j
  simp only [transpose_apply, secondDerivatives, Matrix.of_apply]
  by_cases hj : j ∈ (x.phaseOf i).species
  · have hi : i ∈ (x.phaseOf j).species := by rw [hsymm i j hj]; exact x.mem_phaseOf i
    by_cases hij : i = j
    · rw [hij]
    · simp [hsymm i j hj, hj, x.mem_phaseOf i, hij, Ne.symm hij]
  · have hi : i ∉ (x.phaseOf j).species := fun hi => hj (by rw [hsymm j i hi]; exact x.mem_phaseOf j)
    simp [hi, hj]

section

variable (hs : ∀ i, 0 < x.seen a i)

include hs

/-- The second derivatives vanish along the amounts that the logarithms see. -/
theorem secondDerivatives_mulVec_seen : x.secondDerivatives a *ᵥ x.seen a = 0 := by
  funext i
  have hamount : (x.phaseOf i).amount (x.seen a) ≠ 0 := (Phase.amount_pos hs (x.mem_phaseOf i)).ne'
  rw [secondDerivatives_mulVec (x.phaseOf_mem i) (Phase.mem_members.mpr (x.mem_phaseOf i)),
    div_self (hs i).ne', div_self hamount, sub_self, ite_self, Pi.zero_apply]

/-- **Along a direction the second derivative is a sum of squares**: of how far the relative change of
each species is from that of its phase. -/
theorem dotProduct_secondDerivatives (v : Fin n → ℝ) :
    v ⬝ᵥ (x.secondDerivatives a *ᵥ v) = ∑ i, if (x.phaseOf i).isMixed then
      x.seen a i * (v i / x.seen a i -
        (x.phaseOf i).amount v / (x.phaseOf i).amount (x.seen a)) ^ 2 else 0 := by
  rw [dotProduct, x.sum_eq_sum_phases, x.sum_eq_sum_phases]
  congr 1
  apply List.map_congr_left
  intro q hq
  have hown : ∀ i ∈ q.members, x.phaseOf i = q := fun i hi => phaseOf_eq hq (Phase.mem_members.mp hi)
  have hleft : ∀ i ∈ q.members, v i * (x.secondDerivatives a *ᵥ v) i = if q.isMixed then
      v i * (v i / x.seen a i - q.amount v / q.amount (x.seen a)) else 0 := by
    intro i hi
    rw [secondDerivatives_mulVec hq hi, mul_ite, mul_zero]
  have hright : ∀ i ∈ q.members, (if (x.phaseOf i).isMixed then x.seen a i * (v i / x.seen a i -
      (x.phaseOf i).amount v / (x.phaseOf i).amount (x.seen a)) ^ 2 else 0) = if q.isMixed then
      x.seen a i * (v i / x.seen a i - q.amount v / q.amount (x.seen a)) ^ 2 else 0 := by
    intro i hi
    rw [hown i hi]
  rw [Finset.sum_congr rfl hleft, Finset.sum_congr rfl hright]
  cases hmixed : q.isMixed with
  | false => simp
  | true => simpa using q.sum_mul_sub_share hs v

/-- **The second derivatives without the floor are nonnegative** along every direction, wherever the
logarithms see positive amounts. -/
theorem secondDerivatives_nonneg (v : Fin n → ℝ) : 0 ≤ v ⬝ᵥ (x.secondDerivatives a *ᵥ v) := by
  rw [dotProduct_secondDerivatives hs]
  apply Finset.sum_nonneg
  intro i _
  split
  · exact mul_nonneg (hs i).le (sq_nonneg _)
  · exact le_rfl

end

end Mixture

end GibbsNewton
