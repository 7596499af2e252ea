import GibbsNewton.Proofs.Mixture.Convex
import Mathlib.LinearAlgebra.Matrix.Symmetric

/-!
# The second derivatives of a mixture are semidefinite

The second derivatives without the floor are a symmetric matrix of one block for each phase, and along a
direction they are a sum of squares.  So they are semidefinite, and the directions along which they
vanish are known: every mixed phase must keep its composition, the amounts in it changing in proportion
to what the logarithms see of them.  A phase of one species may change in any way.

## Main definitions

* `Mixture.Semidefinite` — a matrix has these properties, for some amounts.

## Main results

* `Mixture.dotProduct_secondDerivatives_eq_zero_iff` — the directions along which they vanish.
* `Mixture.semidefinite_curvature` — **the second derivatives without the floor are semidefinite with a
  known kernel**, at all amounts.
-/

namespace GibbsNewton.Mixture

open Matrix

variable {n : ℕ} {x : Mixture ℝ n} {a : Fin n → ℝ}

/-- Two species of different phases do not feel each other. -/
theorem secondDerivatives_of_notMem {q : Phase n} (hq : q ∈ x.phases) {i j : Fin n} (hi : i ∈ q.species)
    (hj : j ∉ q.species) : x.secondDerivatives a i j = 0 := by
  rw [secondDerivatives, Matrix.of_apply, phaseOf_eq hq hi]
  simp [hj]

section

variable (hs : ∀ i, 0 < x.seen a i)

include hs

/-- The diagonal holds the second derivatives along the axes. -/
theorem secondDerivatives_self_nonneg (i : Fin n) : 0 ≤ x.secondDerivatives a i i := by
  simpa using secondDerivatives_nonneg hs (Pi.single i 1)

/-- **The second derivative vanishes along a direction exactly when every mixed phase keeps its
composition.** -/
theorem dotProduct_secondDerivatives_eq_zero_iff (v : Fin n → ℝ) :
    v ⬝ᵥ (x.secondDerivatives a *ᵥ v) = 0 ↔
      ∀ q ∈ x.phases, 2 ≤ q.species.length → ∃ t, ∀ i ∈ q.species, v i = t * x.seen a i := by
  have hnonneg : ∀ i ∈ Finset.univ, 0 ≤ if (x.phaseOf i).isMixed then x.seen a i *
      (v i / x.seen a i - (x.phaseOf i).amount v / (x.phaseOf i).amount (x.seen a)) ^ 2 else 0 := by
    intro i _
    split
    · exact mul_nonneg (hs i).le (sq_nonneg _)
    · exact le_rfl
  rw [dotProduct_secondDerivatives hs, Finset.sum_eq_zero_iff_of_nonneg hnonneg]
  constructor
  · intro hzero q hq hmixed
    refine ⟨q.amount v / q.amount (x.seen a), fun i hi => ?_⟩
    have hsquare := hzero i (Finset.mem_univ i)
    rw [phaseOf_eq hq hi, if_pos (Phase.isMixed_iff.mpr hmixed)] at hsquare
    have hshare := pow_eq_zero_iff two_ne_zero |>.mp ((mul_eq_zero_iff_left (hs i).ne').mp hsquare)
    rw [← sub_eq_zero.mp hshare, div_mul_cancel₀ _ (hs i).ne']
  · intro hkept i _
    split
    next hmixed =>
      obtain ⟨t, ht⟩ := hkept _ (x.phaseOf_mem i) (Phase.isMixed_iff.mp hmixed)
      have hamount : (x.phaseOf i).amount v = t * (x.phaseOf i).amount (x.seen a) := by
        rw [Phase.amount, Phase.amount, Finset.mul_sum]
        exact Finset.sum_congr rfl fun j hj => ht j (Phase.mem_members.mp hj)
      have hpos : (x.phaseOf i).amount (x.seen a) ≠ 0 := (Phase.amount_pos hs (x.mem_phaseOf i)).ne'
      rw [ht i (x.mem_phaseOf i), hamount, mul_div_cancel_right₀ _ (hs i).ne',
        mul_div_cancel_right₀ _ hpos, sub_self, sq, mul_zero, mul_zero]
    next => rfl

end

/-- What is known of the second derivatives `H` of a mixture where the logarithms see the amounts
`s`. -/
structure Semidefinite (x : Mixture ℝ n) (s : Fin n → ℝ) (H : Matrix (Fin n) (Fin n) ℝ) : Prop where
  isSymm : H.IsSymm
  nonneg : ∀ v, 0 ≤ v ⬝ᵥ (H *ᵥ v)
  /-- There is a block for each phase. -/
  block : ∀ p ∈ x.phases, ∀ q ∈ x.phases, p ≠ q → ∀ i ∈ p.species, ∀ j ∈ q.species, H i j = 0
  diagonal_nonneg : ∀ i, 0 ≤ H i i
  /-- They vanish along a direction exactly when every phase of two or more species keeps its
  composition. -/
  eq_zero_iff : ∀ v, v ⬝ᵥ (H *ᵥ v) = 0 ↔
    ∀ q ∈ x.phases, 2 ≤ q.species.length → ∃ t, ∀ i ∈ q.species, v i = t * s i
  /-- In particular the amounts themselves are such a direction. -/
  mulVec_eq_zero : H *ᵥ s = 0

/-- **The second derivatives without the floor are semidefinite, and vanish along the directions that
keep the composition of every mixed phase**, at all amounts and however the species are shared out. -/
theorem semidefinite_curvature (x : Mixture ℝ n) (hfloor : 0 < x.floor) (a : Fin n → ℝ) :
    ∃ H, x.exact.curvature (Vec.ofReal a) = Mat.ofReal H ∧
      x.Semidefinite (fun i => max (a i) x.floor) H := by
  have hs := seen_pos_of_floor_pos hfloor a
  refine ⟨x.secondDerivatives a, curvature_ofReal hs, {
    isSymm := x.secondDerivatives_transpose a
    nonneg := secondDerivatives_nonneg hs
    block := fun p hp q hq hne i hi j hj => ?_
    diagonal_nonneg := secondDerivatives_self_nonneg hs
    eq_zero_iff := dotProduct_secondDerivatives_eq_zero_iff hs
    mulVec_eq_zero := secondDerivatives_mulVec_seen hs }⟩
  exact secondDerivatives_of_notMem hp hi fun hjp => hne (phase_eq_of_mem x.partition hp hq hjp hj)

/-- Two gases over a solid, the gases listed in another order than their numbers. -/
noncomputable def gasesOverSolid : Mixture ℝ 3 where
  standard := Vec.of ![0, 1, 0]
  pressure := 200000
  floor := 1
  phases := [⟨"solid", "solid", [1]⟩, ⟨"gas", "gas", [2, 0]⟩]
  partition := by decide

/-- With one gas below the floor, no change of the solid alone is felt, and every change of a gas alone
is. -/
theorem semidefinite_curvature_gasesOverSolid : 0 < gasesOverSolid.floor ∧
    ∃ H, gasesOverSolid.exact.curvature (Vec.ofReal ![3, -1, 0]) = Mat.ofReal H ∧
      gasesOverSolid.Semidefinite ![3, 1, 1] H ∧
      ![0, 7, 0] ⬝ᵥ (H *ᵥ ![0, 7, 0]) = 0 ∧ ![1, 0, 0] ⬝ᵥ (H *ᵥ ![1, 0, 0]) ≠ 0 := by
  have hfloor : 0 < gasesOverSolid.floor := by norm_num [gasesOverSolid]
  obtain ⟨H, hH, hsemidefinite⟩ := semidefinite_curvature gasesOverSolid hfloor ![3, -1, 0]
  have hseen : (fun i => max ((![3, -1, 0] : Fin 3 → ℝ) i) gasesOverSolid.floor) = ![3, 1, 1] := by
    funext i
    fin_cases i <;> norm_num [gasesOverSolid]
  rw [hseen] at hsemidefinite
  have hphases : ∀ {P : Phase 3 → Prop}, (∀ q ∈ gasesOverSolid.phases, P q) ↔
      P ⟨"solid", "solid", [1]⟩ ∧ P ⟨"gas", "gas", [2, 0]⟩ := by simp [gasesOverSolid]
  refine ⟨hfloor, H, hH, hsemidefinite, ?_, ?_⟩
  · rw [hsemidefinite.eq_zero_iff, hphases]
    exact ⟨by simp, fun _ => ⟨0, by simp⟩⟩
  · rw [ne_eq, hsemidefinite.eq_zero_iff, hphases]
    rintro ⟨-, hgas⟩
    obtain ⟨t, ht⟩ := hgas (by simp)
    obtain rfl : t = 0 := by simpa using (ht 2 (by simp)).symm
    simpa using ht 0 (by simp)

end GibbsNewton.Mixture
