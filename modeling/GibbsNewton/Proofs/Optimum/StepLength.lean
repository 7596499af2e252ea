import GibbsNewton.Optimum.Iterate
import GibbsNewton.Proofs.Linear.Real

/-!
# Safe step lengths

In exact arithmetic `fractionToBoundary` is a minimum of finitely many real ratios, and for a positive
vector it is the longest step, among those of length at most one, that leaves every entry at least
the share `1 - tau` of what it was.

## Main definitions

* `boundaryFraction p dp tau` — the value of `fractionToBoundary` on real data.
* `KeepsShare p dp tau t` — a step of length `t` along `dp` leaves every entry of `p` its share.

## Main results

* `fractionToBoundary_ofReal` — the two functions agree.
* `boundaryFraction_pos`, `boundaryFraction_le_one`, `le_boundaryFraction_iff` — **the length found is
  positive, at most one, and the longest of those that keep the share**.
* `Optimum.Iterate.exists_safe_step` — both ways to move an iterate stay within these lengths.
-/

namespace GibbsNewton

variable {n m : ℕ}

/-! ### The fraction to the boundary -/

/-- The step at which an entry that shrinks is down to its share, one for an entry that does not. -/
noncomputable def boundaryRatio (p dp : Fin n → ℝ) (tau : ℝ) (i : Fin n) : ℝ :=
  if dp i < 0 then -tau * p i / dp i else 1

/-- The smallest of these steps, one if there is no shorter. -/
noncomputable def boundaryFraction (p dp : Fin n → ℝ) (tau : ℝ) : ℝ :=
  Fin.foldl n (fun t i => min t (boundaryRatio p dp tau i)) 1

/-- A step of length `t` along `dp` leaves every entry of `p` at least the share `1 - tau`. -/
def KeepsShare (p dp : Fin n → ℝ) (tau t : ℝ) : Prop := ∀ i, (1 - tau) * p i ≤ p i + t * dp i

private theorem foldl_minimum_coe (f : Fin n → ℝ) (a : ℝ) :
    Fin.foldl n (fun t i => Scalar.minimum t (f i : Exact)) (a : Exact) =
      ((Fin.foldl n (fun t i => min t (f i)) a : ℝ) : Exact) := by
  induction n with
  | zero => simp
  | succ n ih => rw [Fin.foldl_succ_last, Fin.foldl_succ_last, ih, Exact.minimum_coe]

private theorem le_foldl_min_iff (f : Fin n → ℝ) (a s : ℝ) :
    s ≤ Fin.foldl n (fun t i => min t (f i)) a ↔ s ≤ a ∧ ∀ i, s ≤ f i := by
  induction n with
  | zero => simp
  | succ n ih => rw [Fin.foldl_succ_last, le_min_iff, ih, Fin.forall_fin_succ', and_assoc]

private theorem lt_foldl_min_iff (f : Fin n → ℝ) (a s : ℝ) :
    s < Fin.foldl n (fun t i => min t (f i)) a ↔ s < a ∧ ∀ i, s < f i := by
  induction n with
  | zero => simp
  | succ n ih => rw [Fin.foldl_succ_last, lt_min_iff, ih, Fin.forall_fin_succ', and_assoc]

private theorem foldl_min_mem (f : Fin n → ℝ) (a : ℝ) :
    Fin.foldl n (fun t i => min t (f i)) a = a ∨
      ∃ i, Fin.foldl n (fun t i => min t (f i)) a = f i := by
  induction n with
  | zero => exact .inl (Fin.foldl_zero _ _)
  | succ n ih =>
    rw [Fin.foldl_succ_last]
    rcases min_choice (Fin.foldl n (fun t i => min t (f i.castSucc)) a) (f (Fin.last n)) with h | h
    · rw [h]
      rcases ih fun i => f i.castSucc with hstart | ⟨i, hi⟩
      · exact .inl hstart
      · exact .inr ⟨i.castSucc, hi⟩
    · exact .inr ⟨Fin.last n, h⟩

/-- On real data no ratio is a division by zero. -/
theorem fractionToBoundary_ofReal (p dp : Fin n → ℝ) (tau : ℝ) :
    fractionToBoundary (Vec.ofReal p) (Vec.ofReal dp) (tau : Exact) =
      (boundaryFraction p dp tau : Exact) := by
  have hratio : ∀ i, (if Scalar.lt (Vec.ofReal dp i) 0 then
      -(tau : Exact) * Vec.ofReal p i / Vec.ofReal dp i else 1) =
        (boundaryRatio p dp tau i : Exact) := by
    intro i
    unfold boundaryRatio
    by_cases h : dp i < 0
    · simp [h, Exact.div_coe _ h.ne]
    · simp [h]
  unfold fractionToBoundary boundaryFraction
  simp only [hratio]
  rw [Exact.one_eq]
  exact foldl_minimum_coe _ 1

/-- The fraction depends on the ratios alone, in whatever order they come. -/
theorem boundaryFraction_eq_of_ratio {p dp p' dp' : Fin n → ℝ} {tau : ℝ} (e : Equiv.Perm (Fin n))
    (h : ∀ i, boundaryRatio p' dp' tau i = boundaryRatio p dp tau (e i)) :
    boundaryFraction p' dp' tau = boundaryFraction p dp tau := by
  apply eq_of_forall_le_iff
  intro s
  unfold boundaryFraction
  rw [le_foldl_min_iff, le_foldl_min_iff]
  simp only [h, e.forall_congr_right (q := fun i => s ≤ boundaryRatio p dp tau i)]

/-- A fraction that is not one takes some entry down to exactly its share. -/
theorem boundaryFraction_eq_one_or (p dp : Fin n → ℝ) (tau : ℝ) :
    boundaryFraction p dp tau = 1 ∨
      ∃ i, dp i < 0 ∧ p i + boundaryFraction p dp tau * dp i = (1 - tau) * p i := by
  rcases foldl_min_mem (boundaryRatio p dp tau) 1 with h | ⟨i, hi⟩
  · exact .inl h
  · change boundaryFraction p dp tau = boundaryRatio p dp tau i at hi
    unfold boundaryRatio at hi
    split at hi
    next hneg =>
      refine .inr ⟨i, hneg, ?_⟩
      rw [hi, div_mul_cancel₀ _ hneg.ne]
      ring
    next hgrow => exact .inl hi

section Positive

variable {p dp : Fin n → ℝ} {tau t : ℝ}

theorem boundaryFraction_le_one (p dp : Fin n → ℝ) (tau : ℝ) : boundaryFraction p dp tau ≤ 1 :=
  ((le_foldl_min_iff _ 1 _).mp le_rfl).1

theorem boundaryFraction_pos (hp : ∀ i, 0 < p i) (htau : 0 < tau) :
    0 < boundaryFraction p dp tau := by
  refine (lt_foldl_min_iff _ 1 0).mpr ⟨one_pos, fun i => ?_⟩
  unfold boundaryRatio
  split
  next h =>
    have hnum : -tau * p i < 0 := by
      rw [neg_mul]
      exact neg_neg_of_pos (mul_pos htau (hp i))
    exact div_pos_of_neg_of_neg hnum h
  next h => exact one_pos

/-- **The longest safe step.**  Of the steps of length at most one, those that keep the share are
the ones up to the fraction found. -/
theorem le_boundaryFraction_iff (hp : ∀ i, 0 < p i) (htau : 0 < tau) (h0 : 0 ≤ t) (h1 : t ≤ 1) :
    t ≤ boundaryFraction p dp tau ↔ KeepsShare p dp tau t := by
  have hentry : ∀ i, t ≤ boundaryRatio p dp tau i ↔ (1 - tau) * p i ≤ p i + t * dp i := by
    intro i
    have htp : 0 < tau * p i := mul_pos htau (hp i)
    unfold boundaryRatio
    split
    next h =>
      rw [le_div_iff_of_neg h]
      constructor <;> intro <;> linarith
    next h =>
      -- An entry that does not shrink keeps more than its share at any length.
      have hgrow : 0 ≤ t * dp i := mul_nonneg h0 (not_lt.mp h)
      exact ⟨fun _ => by linarith, fun _ => h1⟩
  unfold boundaryFraction KeepsShare
  rw [le_foldl_min_iff]
  simp only [hentry, h1, true_and]

/-- What keeps its share stays positive. -/
theorem KeepsShare.pos (h : KeepsShare p dp tau t) (hp : ∀ i, 0 < p i) (htau : tau < 1) (i : Fin n) :
    0 < (p + t • dp) i := by
  have hshare : 0 < (1 - tau) * p i := mul_pos (sub_pos.mpr htau) (hp i)
  exact hshare.trans_le (h i)

/-- What keeps its share, read as exact values. -/
theorem KeepsShare.exact (h : KeepsShare p dp tau t) (hp : ∀ i, 0 < p i) (htau : tau < 1)
    (i : Fin n) :
    0 < Vec.ofReal (p + t • dp) i ∧
      (1 - (tau : Exact)) * Vec.ofReal p i ≤ Vec.ofReal (p + t • dp) i := by
  rw [Vec.ofReal_apply, Vec.ofReal_apply, Exact.zero_eq, Exact.one_eq, Exact.coe_lt_coe,
    Exact.sub_coe, Exact.mul_coe, Exact.coe_le_coe]
  exact ⟨h.pos hp htau i, h i⟩

end Positive

/-! ### Moving an iterate -/

namespace Optimum.Iterate

variable {u : Iterate Exact n m} {d : Kkt.Direction Exact n m} {x z dx dz : Fin n → ℝ} {tau : ℝ}

/-- The lengths along a direction, for variables and bound multipliers that are real. -/
theorem lengths_ofReal (hx : u.x = Vec.ofReal x) (hz : u.z = Vec.ofReal z)
    (hdx : d.dx = Vec.ofReal dx) (hdz : d.dz = Vec.ofReal dz) :
    u.lengths d tau =
      { common := (min (boundaryFraction x dx tau) (boundaryFraction z dz tau) : ℝ)
        primal := boundaryFraction x dx tau
        dual := boundaryFraction z dz tau } := by
  unfold lengths
  rw [hx, hz, hdx, hdz, fractionToBoundary_ofReal, fractionToBoundary_ofReal]
  simp only [Exact.firstMin_coe]

/-- **Both ways to move are safe**: variables and bound multipliers each go at most as far as their
fraction to the boundary. -/
theorem exists_safe_step (hx : u.x = Vec.ofReal x) (hz : u.z = Vec.ofReal z)
    (hdx : d.dx = Vec.ofReal dx) (hdz : d.dz = Vec.ofReal dz) (hxpos : ∀ i, 0 < x i)
    (hzpos : ∀ i, 0 < z i) (htau : 0 < tau) (uniform : Bool) :
    ∃ a b : ℝ, KeepsShare x dx tau a ∧ KeepsShare z dz tau b ∧
      (u.step d (u.lengths d tau) uniform).x = Vec.ofReal (x + a • dx) ∧
      (u.step d (u.lengths d tau) uniform).z = Vec.ofReal (z + b • dz) := by
  rw [lengths_ofReal hx hz hdx hdz]
  unfold step
  have ha : 0 < boundaryFraction x dx tau := boundaryFraction_pos hxpos htau
  have hb : 0 < boundaryFraction z dz tau := boundaryFraction_pos hzpos htau
  have ha1 := boundaryFraction_le_one x dx tau
  have hb1 := boundaryFraction_le_one z dz tau
  cases uniform with
  | false =>
    refine ⟨_, _, (le_boundaryFraction_iff hxpos htau ha.le ha1).mp le_rfl,
      (le_boundaryFraction_iff hzpos htau hb.le hb1).mp le_rfl, ?_, ?_⟩
    · simp [hx, hdx]
    · simp [hz, hdz]
  | true =>
    -- The common length is shorter than either fraction, and what is shorter is safe as well.
    have h0 : 0 ≤ min (boundaryFraction x dx tau) (boundaryFraction z dz tau) :=
      le_min ha.le hb.le
    have hl := min_le_left (boundaryFraction x dx tau) (boundaryFraction z dz tau)
    have hr := min_le_right (boundaryFraction x dx tau) (boundaryFraction z dz tau)
    refine ⟨_, _, (le_boundaryFraction_iff hxpos htau h0 (hl.trans ha1)).mp hl,
      (le_boundaryFraction_iff hzpos htau h0 (hr.trans hb1)).mp hr, ?_, ?_⟩
    · simp [hx, hdx]
    · simp [hz, hdz]

end Optimum.Iterate

end GibbsNewton
