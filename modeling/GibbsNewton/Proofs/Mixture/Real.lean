import GibbsNewton.Mixture.Derivative
import GibbsNewton.Proofs.Linear.Real
import GibbsNewton.Proofs.Mixture.Partition

/-!
# Mixtures over the reals

A mixture of real numbers, read as one of exact values, and its Gibbs energy and derivatives there.
Where the logarithms see positive amounts nothing is undefined, and each function is, species by
species, an expression in the phase that the species is in.  Where no amount is below the floor the
gradient is the chemical potential, and the second derivatives are those without the floor.

## Main definitions

* `Mixture.exact` — a mixture of reals read as one of exact values.
* `Mixture.seen` — the amounts that logarithms see.
* `Mixture.chemicalPotential`, `Mixture.gibbs`, `Mixture.slopedPotential`,
  `Mixture.secondDerivatives` — the functions over the reals.

## Main results

* `Mixture.potentials_ofReal`, `Mixture.energy_ofReal`, `Mixture.gradient_ofReal`,
  `Mixture.curvature_ofReal` — **the functions of a mixture at real amounts.**
* `Mixture.gradient_of_above`, `Mixture.hessian_of_above` — the derivatives above the floor.
-/

namespace GibbsNewton

open Matrix

variable {n : ℕ}

/-- One bar in pascals. -/
theorem standardPressure_eq : (standardPressure : Exact) = ((100000 : ℝ) : Exact) :=
  congrArg Exact.real (by norm_num)

theorem div_standardPressure (p : ℝ) :
    (p : Exact) / standardPressure = ((p / 100000 : ℝ) : Exact) := by
  rw [standardPressure_eq]
  exact Exact.div_coe p (by norm_num)

/-! ### One phase -/

namespace Phase

variable (q : Phase n)

/-- The amount of matter in a phase. -/
def amount (s : Fin n → ℝ) : ℝ := ∑ i ∈ q.members, s i

/-- The logarithmic activity of a species of a phase. -/
noncomputable def activity (s : Fin n → ℝ) (logPressure : ℝ) (i : Fin n) : ℝ :=
  (if q.isMixed then Real.log (s i) - Real.log (q.amount s) else 0) +
    if q.isGas then logPressure else 0

/-- The second derivative in two species of a phase, with the raising of the amounts `a` to `s`, of
slopes `d`, taken into account. -/
noncomputable def slopedEntry (a s d : Fin n → ℝ) (i j : Fin n) : ℝ :=
  d j * ((if i = j then 1 / s i else 0) - 1 / q.amount s) +
    d i * ((if i = j then 1 / s i - a i * d i / (s i * s i) else 0) -
      (1 / q.amount s - q.amount a * d j / (q.amount s * q.amount s)))

variable {q}

/-- Adding up reals from a real start gives the real sum. -/
private theorem foldl_species_coe (species : List (Fin n)) (s : Fin n → ℝ) (a : ℝ) :
    species.foldl (fun t i => t + Vec.ofReal s i) (a : Exact) =
      ((a + (species.map s).sum : ℝ) : Exact) := by
  induction species generalizing a with
  | nil => simp
  | cons i species ih =>
    rw [List.foldl_cons, Vec.ofReal_apply, Exact.add_coe, ih, List.map_cons, List.sum_cons, add_assoc]

theorem total_ofReal (hq : q.species.Nodup) (s : Fin n → ℝ) :
    q.total (Vec.ofReal s) = (q.amount s : Exact) := by
  rw [total, Exact.zero_eq, foldl_species_coe, zero_add, amount, members, List.sum_toFinset s hq]

theorem amount_pos {s : Fin n → ℝ} (hs : ∀ i, 0 < s i) {i : Fin n} (hi : i ∈ q.species) :
    0 < q.amount s :=
  Finset.sum_pos (fun j _ => hs j) ⟨i, mem_members.mpr hi⟩

/-! ### What one phase puts in -/

section

variable {s d a : Fin n → ℝ} {i : Fin n}

theorem addSlopes_of_notMem {a s d g : Vec Exact n} (hi : i ∉ q.species) :
    q.addSlopes a s d g i = g i := by
  unfold addSlopes
  split <;> simp [hi]

theorem putHessian_of_notMem {a s d : Vec Exact n} {H : Mat Exact n n} {j : Fin n}
    (hi : i ∉ q.species) : q.putHessian a s d H i j = H i j := by
  unfold putHessian
  split <;> simp [hi]

variable (hq : q.species.Nodup) (hs : ∀ i, 0 < s i) (hi : i ∈ q.species)

include hq hs hi

theorem addSlopes_ofReal {g : Vec Exact n} {c : ℝ} (hg : g i = (c : Exact)) :
    q.addSlopes (Vec.ofReal a) (Vec.ofReal s) (Vec.ofReal d) g i =
      ((if q.isMixed then c + d i * (a i / s i - q.amount a / q.amount s) else c : ℝ) : Exact) := by
  have hcontains : q.species.contains i = true := by simpa using hi
  rw [addSlopes]
  cases hmixed : q.isMixed with
  | false => simpa using hg
  | true =>
    rw [if_pos rfl, if_pos rfl, Vec.of_apply, if_pos hcontains, total_ofReal hq, total_ofReal hq, hg,
      Exact.div_coe _ (amount_pos hs hi).ne']
    simp only [Vec.ofReal_apply]
    rw [Exact.div_coe _ (hs i).ne']
    simp

theorem putHessian_ofReal {H : Mat Exact n n} {j : Fin n} (hH : H i j = 0) :
    q.putHessian (Vec.ofReal a) (Vec.ofReal s) (Vec.ofReal d) H i j =
      ((if q.isMixed && q.species.contains j then q.slopedEntry a s d i j else 0 : ℝ) : Exact) := by
  have hcontains : q.species.contains i = true := by simpa using hi
  have hamount : q.amount s ≠ 0 := (amount_pos hs hi).ne'
  have hsi : s i ≠ 0 := (hs i).ne'
  rw [putHessian]
  cases hmixed : q.isMixed with
  | false => simpa using hH
  | true =>
    rw [if_pos rfl, Mat.of_apply, hcontains, total_ofReal hq, total_ofReal hq, hH]
    simp only [Vec.ofReal_apply, Exact.one_eq, Exact.mul_coe, Exact.zero_eq]
    rw [Exact.div_coe _ hamount, Exact.div_coe _ (mul_ne_zero hamount hamount), Exact.div_coe _ hsi,
      Exact.div_coe _ (mul_ne_zero hsi hsi)]
    cases q.species.contains j with
    | false => simp
    | true => by_cases hij : i = j <;> simp [slopedEntry, hij]

end

end Phase

/-! ### The whole mixture -/

namespace Mixture

/-- A mixture of reals read as one of exact values. -/
def exact (x : Mixture ℝ n) : Mixture Exact n where
  standard := Vec.ofReal ⇑x.standard
  pressure := x.pressure
  floor := x.floor
  phases := x.phases
  partition := x.partition

variable (x : Mixture ℝ n) (a : Fin n → ℝ)

/-- The amounts that logarithms see. -/
def seen (i : Fin n) : ℝ := max (a i) x.floor

/-- The logarithm of the pressure in bars. -/
noncomputable def logPressure : ℝ := Real.log (x.pressure / 100000)

/-- The logarithmic activities. -/
noncomputable def activity (i : Fin n) : ℝ := (x.phaseOf i).activity (x.seen a) x.logPressure i

/-- The chemical potentials. -/
noncomputable def chemicalPotential (i : Fin n) : ℝ := x.standard i + x.activity a i

/-- The Gibbs energy. -/
noncomputable def gibbs : ℝ := a ⬝ᵥ x.chemicalPotential a

/-- The slope of raising an amount to the floor. -/
noncomputable def seenSlope (i : Fin n) : ℝ :=
  if x.floor < a i then 1 else if a i = x.floor then 1 / (2 : ℕ) else 0

/-- The gradient of the Gibbs energy. -/
noncomputable def slopedPotential (i : Fin n) : ℝ :=
  let q := x.phaseOf i
  if q.isMixed then
    x.chemicalPotential a i +
      x.seenSlope a i * (a i / x.seen a i - q.amount a / q.amount (x.seen a))
  else x.chemicalPotential a i

/-- The second derivatives of the Gibbs energy as if no amount were below the floor. -/
noncomputable def secondDerivatives : Matrix (Fin n) (Fin n) ℝ :=
  Matrix.of fun i j =>
    let q := x.phaseOf i
    if q.isMixed && q.species.contains j then
      (if i = j then 1 / x.seen a i else 0) - 1 / q.amount (x.seen a)
    else 0

/-- The second derivatives of the Gibbs energy. -/
noncomputable def slopedDerivatives : Matrix (Fin n) (Fin n) ℝ :=
  Matrix.of fun i j =>
    let q := x.phaseOf i
    if q.isMixed && q.species.contains j then q.slopedEntry a (x.seen a) (x.seenSlope a) i j else 0

variable {x a}

/-- Positive amounts are seen as positive. -/
theorem seen_pos (ha : ∀ i, 0 < a i) (i : Fin n) : 0 < x.seen a i := lt_max_of_lt_left (ha i)

/-- A positive floor is all that the logarithms need to see positive amounts. -/
theorem seen_pos_of_floor_pos (hfloor : 0 < x.floor) (a : Fin n → ℝ) (i : Fin n) : 0 < x.seen a i :=
  lt_max_of_lt_right hfloor

theorem nodup_phaseOf (i : Fin n) : (x.phaseOf i).species.Nodup :=
  nodup_of_isPartition x.partition (x.phaseOf_mem i)

@[simp] theorem raised_ofReal : x.exact.raised (Vec.ofReal a) = Vec.ofReal (x.seen a) := by
  apply Vec.ext
  intro i
  simp [raised, exact, seen]

@[simp] theorem map_slope_ofReal :
    (Vec.ofReal a).map x.exact.slope = Vec.ofReal (x.seenSlope a) := by
  apply Vec.ext
  intro i
  have htwo : (2 : Exact) = ((2 : ℝ) : Exact) := congrArg Exact.real Nat.cast_ofNat
  rw [Vec.map_apply, Vec.ofReal_apply, Vec.ofReal_apply, slope, seenSlope, htwo, Exact.one_eq,
    Exact.div_coe _ two_ne_zero]
  by_cases hlt : x.floor < a i
  · simp [exact, hlt]
  · by_cases heq : a i = x.floor <;> simp [exact, hlt, heq]

/-- No amount is below the floor. -/
def Above (x : Mixture ℝ n) (a : Fin n → ℝ) : Prop := ∀ i, 0 < a i ∧ x.floor < a i

theorem logPressure_eq (hP : 0 < x.pressure) :
    Scalar.log (x.exact.pressure / standardPressure) = (x.logPressure : Exact) := by
  have hpressure : x.exact.pressure / standardPressure = ((x.pressure / 100000 : ℝ) : Exact) :=
    div_standardPressure x.pressure
  rw [hpressure, Exact.log_coe (by positivity), logPressure]

variable (hs : ∀ i, 0 < x.seen a i)

include hs

/-! ### Potentials -/

section

variable (hP : 0 < x.pressure)

include hP

/-- **The logarithmic activities**, each put in by the phase of its species. -/
theorem logActivities_ofReal :
    x.exact.logActivities (Vec.ofReal a) = Vec.ofReal (x.activity a) := by
  apply Vec.ext
  intro i
  rw [logActivities_apply x.exact _ (x.phaseOf_mem i) (x.mem_phaseOf i), raised_ofReal,
    logPressure_eq hP, Phase.total_ofReal (nodup_phaseOf i), Vec.ofReal_apply, Vec.ofReal_apply,
    Exact.log_coe (hs i), Exact.log_coe (Phase.amount_pos hs (x.mem_phaseOf i)), activity]
  cases hmixed : (x.phaseOf i).isMixed <;> cases hgas : (x.phaseOf i).isGas <;>
    simp [Phase.activity, hmixed, hgas]

theorem potentials_ofReal :
    x.exact.potentials (Vec.ofReal a) = Vec.ofReal (x.chemicalPotential a) := by
  rw [potentials, logActivities_ofReal hs hP]
  exact Vec.add_ofReal _ _

theorem energy_ofReal : x.exact.energy (Vec.ofReal a) = (x.gibbs a : Exact) := by
  rw [energy, potentials_ofReal hs hP, Vec.dot_ofReal, gibbs]

theorem gradient_ofReal : x.exact.gradient (Vec.ofReal a) = Vec.ofReal (x.slopedPotential a) := by
  apply Vec.ext
  intro i
  rw [Vec.ofReal_apply, gradient, raised_ofReal, map_slope_ofReal, potentials_ofReal hs hP]
  refine x.exact.foldl_phases i (fun g : Vec Exact n => g i) (fun p g hi => ?_) fun g hg => ?_
  · exact Phase.addSlopes_of_notMem hi
  · rw [Vec.ofReal_apply] at hg
    exact Phase.addSlopes_ofReal (nodup_phaseOf i) hs (x.mem_phaseOf i) hg

end

/-! ### Second derivatives -/

theorem curvature_ofReal :
    x.exact.curvature (Vec.ofReal a) = Mat.ofReal (x.secondDerivatives a) := by
  apply Mat.ext_apply
  intro i j
  rw [curvature_apply x.exact _ (x.phaseOf_mem i) (x.mem_phaseOf i), raised_ofReal,
    Phase.total_ofReal (nodup_phaseOf i), Mat.ofReal_apply, Vec.ofReal_apply, Vec.ofReal_apply,
    Exact.one_eq, Exact.div_coe _ (hs i).ne',
    Exact.div_coe _ (Phase.amount_pos hs (x.mem_phaseOf i)).ne', secondDerivatives, Matrix.of_apply]
  dsimp only
  cases (x.phaseOf i).isMixed && (x.phaseOf i).species.contains j with
  | false => simp
  | true => by_cases hij : i = j <;> simp [hij]

theorem hessian_ofReal :
    x.exact.hessian (Vec.ofReal a) = Mat.ofReal (x.slopedDerivatives a) := by
  apply Mat.ext_apply
  intro i j
  rw [Mat.ofReal_apply, Vec.ofReal_apply, hessian, raised_ofReal, map_slope_ofReal]
  refine x.exact.foldl_phases i (fun H : Mat Exact n n => H i j) (fun p H hi => ?_) fun H hH => ?_
  · exact Phase.putHessian_of_notMem hi
  · rw [Vec.const_apply, Vec.const_apply] at hH
    exact Phase.putHessian_ofReal (nodup_phaseOf i) hs (x.mem_phaseOf i) hH

omit hs

/-! ### Above the floor -/

section

variable (ha : x.Above a)

include ha

theorem seen_of_above : x.seen a = a := by
  funext i
  exact max_eq_left (ha i).2.le

theorem seenSlope_of_above (i : Fin n) : x.seenSlope a i = 1 := if_pos (ha i).2

/-- **Above the floor the gradient is the chemical potential.** -/
theorem slopedPotential_of_above : x.slopedPotential a = x.chemicalPotential a := by
  funext i
  have hi : a i ≠ 0 := (ha i).1.ne'
  have hamount : (x.phaseOf i).amount a ≠ 0 :=
    (Phase.amount_pos (fun j => (ha j).1) (x.mem_phaseOf i)).ne'
  simp [slopedPotential, seen_of_above ha, hi, hamount]

/-- **Above the floor the second derivatives are those without it.** -/
theorem slopedDerivatives_of_above : x.slopedDerivatives a = x.secondDerivatives a := by
  ext i j
  have hi : a i ≠ 0 := (ha i).1.ne'
  have hamount : (x.phaseOf i).amount a ≠ 0 :=
    (Phase.amount_pos (fun j => (ha j).1) (x.mem_phaseOf i)).ne'
  have hentry : (x.phaseOf i).slopedEntry a (x.seen a) (x.seenSlope a) i j =
      (if i = j then 1 / x.seen a i else 0) - 1 / (x.phaseOf i).amount (x.seen a) := by
    rw [Phase.slopedEntry, seen_of_above ha, seenSlope_of_above ha, seenSlope_of_above ha]
    have hown : (1 : ℝ) / a i - a i * 1 / (a i * a i) = 0 := by field_simp; ring
    have hshared : (1 : ℝ) / (x.phaseOf i).amount a -
        (x.phaseOf i).amount a * 1 / ((x.phaseOf i).amount a * (x.phaseOf i).amount a) = 0 := by
      field_simp
      ring
    rw [hown, hshared, ite_self]
    ring
  simp only [slopedDerivatives, secondDerivatives, Matrix.of_apply, hentry]

end

end Mixture

end GibbsNewton
