import GibbsNewton.Thermo.Fit
import GibbsNewton.Proofs.Mixture.Real
import Mathlib.Analysis.SpecialFunctions.Log.Deriv
import Mathlib.Topology.Algebra.Module.ModuleTopology

/-!
# Standard properties from polynomials are consistent

The heat capacity, the enthalpy, the entropy and the Gibbs energy of a fit are four expressions that are
written down independently of each other, and thermodynamics ties them together: the heat capacity is
the derivative of the enthalpy, and over the temperature that of the entropy, and all that is said about
the Gibbs energy follows from these two.  The two layouts need one argument only, because seven
coefficients say the same as nine of which the first two vanish.

## Main definitions

* `Exact.HasDerivative` — a function of exact values is real around a real number, with this derivative.
* `Fit.nine` — the coefficients of a fit in the places of nine.
* `Fit.capacityOf`, `Fit.enthalpyOf`, `Fit.entropyOf` — heat capacity, enthalpy and entropy
  over the gas constant, the latter two put together from `Fit.powerTerm`.
* `Fit.Consistent` — the relations of thermodynamics at a temperature and a pressure.

## Main results

* `Fit.heatCapacity_exact`, `Fit.enthalpy_exact`, `Fit.entropy_exact`, `Fit.gibbs_exact`,
  `Fit.potential_exact` — the properties at real temperatures.
* `Fit.hasDerivAt_enthalpyOf`, `Fit.hasDerivAt_entropyOf` — the heat capacity gives the slopes of
  enthalpy and entropy.
* `Fit.consistent_of_pos` — **every fit is consistent at every positive temperature and pressure.**
-/

namespace GibbsNewton

open Topology

/-! ### Derivatives of functions of exact values -/

/-- Around the real number `t` the function `f` has real values, and its derivative at `t` is `d`. -/
def Exact.HasDerivative (f : Exact → Exact) (d : Exact) (t : ℝ) : Prop :=
  ∃ (g : ℝ → ℝ) (r : ℝ), (∀ᶠ u in 𝓝 t, f (u : ℝ) = (g u : Exact)) ∧ d = (r : Exact) ∧
    HasDerivAt g r t

/-- It is enough to know the function at positive numbers. -/
theorem Exact.HasDerivative.of_pos {f : Exact → Exact} {g : ℝ → ℝ} {d : Exact} {r t : ℝ} (ht : 0 < t)
    (hf : ∀ u : ℝ, 0 < u → f u = (g u : Exact)) (hd : d = (r : Exact)) (hg : HasDerivAt g r t) :
    HasDerivative f d t :=
  ⟨g, r, (lt_mem_nhds ht).mono hf, hd, hg⟩

/-- The gas constant as a real number. -/
noncomputable def molarGas : ℝ := 8.314462618

theorem gasConstant_eq : (gasConstant : Exact) = (molarGas : Exact) :=
  congrArg Exact.real (by norm_num [molarGas])

theorem molarGas_pos : 0 < molarGas := by
  norm_num [molarGas]

namespace Fit

/-! ### Real coefficients -/

/-- A fit of reals read as one of exact values. -/
def exact (c : Fit ℝ) : Fit Exact where
  first := c.first
  rest := c.rest.map Exact.real

@[simp] theorem isNine_exact (c : Fit ℝ) : c.exact.isNine = c.isNine := by
  simp [isNine, exact]

@[simp] theorem get_exact (c : Fit ℝ) (i : ℕ) : c.exact.get i = (c.get i : Exact) := by
  have hlist : c.exact.toList = c.toList.map Exact.real := rfl
  have hlength : c.exact.rest.length = c.rest.length := List.length_map ..
  rw [get, get, hlist, hlength, List.getD_eq_getElem?_getD, List.getElem?_map,
    List.getD_eq_getElem?_getD]
  exact Option.getD_map Exact.real _ _

/-- The coefficients in the places of nine: seven say the same as nine of which the first two vanish. -/
def nine (c : Fit ℝ) : Fin 9 → ℝ :=
  if c.isNine then fun i => c.get i
  else ![0, 0, c.get 0, c.get 1, c.get 2, c.get 3, c.get 4, c.get 5, c.get 6]

theorem nine_of_isNine {c : Fit ℝ} (h : c.isNine = true) :
    c.nine = ![c.get 0, c.get 1, c.get 2, c.get 3, c.get 4, c.get 5, c.get 6, c.get 7, c.get 8] := by
  rw [nine, if_pos h]
  ext i
  fin_cases i <;> rfl

theorem nine_of_not_isNine {c : Fit ℝ} (h : c.isNine = false) :
    c.nine = ![0, 0, c.get 0, c.get 1, c.get 2, c.get 3, c.get 4, c.get 5, c.get 6] := by
  rw [nine, if_neg (by simp [h])]

/-! ### The properties over the gas constant -/

/-- The heat capacity over the gas constant. -/
noncomputable def capacityOf (b : Fin 9 → ℝ) (t : ℝ) : ℝ :=
  b 0 / t ^ 2 + b 1 / t + b 2 + b 3 * t + b 4 * t ^ 2 + b 5 * t ^ 3 + b 6 * t ^ 4

/-- What a power of the temperature in the heat capacity leaves behind in its integral. -/
noncomputable def powerTerm (a : ℝ) (k : ℕ) (t : ℝ) : ℝ := a * t ^ (k + 1) / (k + 1)

/-- The enthalpy over the gas constant. -/
noncomputable def enthalpyOf (b : Fin 9 → ℝ) (t : ℝ) : ℝ :=
  -b 0 / t + b 1 * Real.log t + powerTerm (b 2) 0 t + powerTerm (b 3) 1 t + powerTerm (b 4) 2 t +
    powerTerm (b 5) 3 t + powerTerm (b 6) 4 t + b 7

/-- The entropy over the gas constant. -/
noncomputable def entropyOf (b : Fin 9 → ℝ) (t : ℝ) : ℝ :=
  -b 0 / ((2 : ℕ) * t ^ 2) - b 1 / t + b 2 * Real.log t + powerTerm (b 3) 0 t + powerTerm (b 4) 1 t +
    powerTerm (b 5) 2 t + powerTerm (b 6) 3 t + b 8

section

variable (c : Fit ℝ) {t p : ℝ} (ht : 0 < t)

include ht

theorem heatCapacity_exact :
    c.exact.heatCapacity t = ((molarGas * capacityOf c.nine t : ℝ) : Exact) := by
  have hreduced : c.exact.reducedHeatCapacity t = (capacityOf c.nine t : Exact) := by
    rw [reducedHeatCapacity, isNine_exact]
    cases hnine : c.isNine with
    | true =>
      rw [if_pos rfl, nine_of_isNine hnine]
      simp only [get_exact, square, cube, fourth, Exact.one_eq, Exact.div_coe _ ht.ne', Exact.mul_coe,
        Exact.add_coe, Exact.coe_inj, capacityOf, Matrix.cons_val]
      field_simp
    | false =>
      rw [if_neg Bool.false_ne_true, nine_of_not_isNine hnine]
      simp only [get_exact, square, cube, fourth, Exact.mul_coe, Exact.add_coe, Exact.coe_inj, capacityOf,
        Matrix.cons_val]
      ring
  rw [heatCapacity, hreduced, gasConstant_eq, Exact.mul_coe]

theorem enthalpy_exact :
    c.exact.enthalpy t = ((molarGas * enthalpyOf c.nine t : ℝ) : Exact) := by
  have hreduced : c.exact.reducedEnthalpy t = ((enthalpyOf c.nine t / t : ℝ) : Exact) := by
    rw [reducedEnthalpy, isNine_exact]
    cases hnine : c.isNine with
    | true =>
      rw [if_pos rfl, nine_of_isNine hnine]
      simp only [get_exact, square, cube, fourth, Exact.one_eq, Exact.ofNat_eq, Exact.log_coe ht,
        Exact.div_coe _ ht.ne', Exact.div_coe _ (OfNat.ofNat_ne_zero _), Exact.mul_coe, Exact.neg_coe,
        Exact.add_coe, Exact.coe_inj, enthalpyOf, powerTerm,
        Matrix.cons_val]
      push_cast
      field_simp
      ring
    | false =>
      rw [if_neg Bool.false_ne_true, nine_of_not_isNine hnine]
      simp only [get_exact, square, cube, fourth, Exact.ofNat_eq, Exact.div_coe _ ht.ne',
        Exact.div_coe _ (OfNat.ofNat_ne_zero _), Exact.mul_coe, Exact.add_coe, Exact.coe_inj, enthalpyOf,
        powerTerm, Matrix.cons_val]
      push_cast
      field_simp
      ring
  rw [enthalpy, hreduced, gasConstant_eq, Exact.mul_coe, Exact.mul_coe, mul_assoc,
    mul_div_cancel₀ _ ht.ne']

theorem entropy_exact :
    c.exact.entropy t = ((molarGas * entropyOf c.nine t : ℝ) : Exact) := by
  have hreduced : c.exact.reducedEntropy t = (entropyOf c.nine t : Exact) := by
    rw [reducedEntropy, isNine_exact]
    cases hnine : c.isNine with
    | true =>
      rw [if_pos rfl, nine_of_isNine hnine]
      simp only [get_exact, square, cube, fourth, Exact.one_eq, Exact.ofNat_eq, Exact.log_coe ht,
        Exact.div_coe _ ht.ne', Exact.div_coe _ (OfNat.ofNat_ne_zero _), Exact.mul_coe, Exact.neg_coe,
        Exact.sub_coe, Exact.add_coe, Exact.coe_inj, entropyOf, powerTerm,
        Matrix.cons_val]
      push_cast
      field_simp
      ring
    | false =>
      rw [if_neg Bool.false_ne_true, nine_of_not_isNine hnine]
      simp only [get_exact, square, cube, fourth, Exact.ofNat_eq, Exact.log_coe ht,
        Exact.div_coe _ (OfNat.ofNat_ne_zero _), Exact.mul_coe, Exact.add_coe, Exact.coe_inj, entropyOf,
        powerTerm, Matrix.cons_val]
      push_cast
      ring
  rw [entropy, hreduced, gasConstant_eq, Exact.mul_coe]

theorem gibbs_exact (hp : 0 < p) :
    c.exact.gibbs t p = ((molarGas * enthalpyOf c.nine t - t * (molarGas * entropyOf c.nine t) +
      molarGas * t * Real.log (p / 100000) : ℝ) : Exact) := by
  rw [gibbs, enthalpy_exact c ht, entropy_exact c ht, gasConstant_eq, div_standardPressure,
    Exact.log_coe (by positivity)]
  simp only [Exact.mul_coe, Exact.sub_coe, Exact.add_coe]

theorem potential_exact :
    c.exact.potential t = ((enthalpyOf c.nine t / t - entropyOf c.nine t : ℝ) : Exact) := by
  have hgas := molarGas_pos.ne'
  have hscale : molarGas * t ≠ 0 := mul_ne_zero hgas ht.ne'
  rw [potential, standardPressure_eq, gibbs_exact c ht (by norm_num), gasConstant_eq, Exact.mul_coe,
    Exact.div_coe _ hscale, Exact.coe_inj, div_self (by norm_num), Real.log_one]
  field_simp
  ring

end

/-! ### Slopes -/

/-- The slope of the integral of a power is the power. -/
theorem hasDerivAt_powerTerm (a : ℝ) (k : ℕ) (t : ℝ) :
    HasDerivAt (powerTerm a k) (a * t ^ k) t := by
  have hpos : (k + 1 : ℝ) ≠ 0 := by positivity
  refine (((hasDerivAt_pow (k + 1) t).const_mul a).div_const _).congr_deriv ?_
  rw [Nat.cast_succ, Nat.add_sub_cancel]
  field_simp

section

variable (b : Fin 9 → ℝ) {t : ℝ} (ht : t ≠ 0)

include ht

/-- **The heat capacity is the slope of the enthalpy.** -/
theorem hasDerivAt_enthalpyOf : HasDerivAt (enthalpyOf b) (capacityOf b t) t := by
  have hinverse : HasDerivAt (fun u => -b 0 / u) (b 0 / t ^ 2) t := by
    refine ((hasDerivAt_inv ht).const_mul (-b 0)).congr_deriv ?_
    field_simp
  have hlog : HasDerivAt (fun u => b 1 * Real.log u) (b 1 * t⁻¹) t :=
    (Real.hasDerivAt_log ht).const_mul (b 1)
  refine HasDerivAt.congr_deriv (((((((hinverse.fun_add hlog).fun_add
    (hasDerivAt_powerTerm (b 2) 0 t)).fun_add (hasDerivAt_powerTerm (b 3) 1 t)).fun_add
    (hasDerivAt_powerTerm (b 4) 2 t)).fun_add (hasDerivAt_powerTerm (b 5) 3 t)).fun_add
    (hasDerivAt_powerTerm (b 6) 4 t)).add_const (b 7)) ?_
  rw [capacityOf, pow_zero, mul_one, pow_one, div_eq_mul_inv (b 1)]

/-- **Over the temperature, the heat capacity is the slope of the entropy.** -/
theorem hasDerivAt_entropyOf :
    HasDerivAt (entropyOf b) (capacityOf b t / t) t := by
  have hsquares : HasDerivAt (fun u => -b 0 / ((2 : ℕ) * u ^ 2)) (b 0 / t ^ 3) t := by
    have hdenominator : HasDerivAt (fun u : ℝ => (2 : ℕ) * u ^ 2) (2 * (2 * t)) t := by
      simpa using (hasDerivAt_pow 2 t).const_mul (2 : ℝ)
    refine ((hasDerivAt_const t (-b 0)).fun_div hdenominator (by positivity)).congr_deriv ?_
    field_simp
    ring
  have hinverse : HasDerivAt (fun u => b 1 / u) (-b 1 / t ^ 2) t := by
    refine ((hasDerivAt_inv ht).const_mul (b 1)).congr_deriv ?_
    field_simp
  have hlog : HasDerivAt (fun u => b 2 * Real.log u) (b 2 * t⁻¹) t :=
    (Real.hasDerivAt_log ht).const_mul (b 2)
  refine HasDerivAt.congr_deriv (((((((hsquares.fun_sub hinverse).fun_add hlog).fun_add
    (hasDerivAt_powerTerm (b 3) 0 t)).fun_add (hasDerivAt_powerTerm (b 4) 1 t)).fun_add
    (hasDerivAt_powerTerm (b 5) 2 t)).fun_add (hasDerivAt_powerTerm (b 6) 3 t)).add_const (b 8)) ?_
  rw [capacityOf]
  field_simp
  ring

end

/-! ### The relations of thermodynamics -/

/-- The relations between the properties of a fit at a temperature `t` and a pressure `p`. -/
structure Consistent (c : Fit ℝ) (t p : ℝ) : Prop where
  /-- The heat capacity is the derivative of the enthalpy. -/
  enthalpy : Exact.HasDerivative c.exact.enthalpy (c.exact.heatCapacity t) t
  /-- Over the temperature it is the derivative of the entropy. -/
  entropy : Exact.HasDerivative c.exact.entropy (c.exact.heatCapacity t / t) t
  /-- At a fixed pressure the Gibbs energy falls with the entropy at this pressure. -/
  gibbs : Exact.HasDerivative (fun u => c.exact.gibbs u p)
    (-c.exact.entropy t + gasConstant * Scalar.log ((p : Exact) / standardPressure)) t
  /-- The relation of Gibbs and Helmholtz, for the standard potential in units of `R T`. -/
  potential : Exact.HasDerivative c.exact.potential
    (-c.exact.enthalpy t / (gasConstant * ((t : Exact) * t))) t
  /-- The Gibbs energy is made of enthalpy and entropy. -/
  gibbs_eq : c.exact.gibbs t p = c.exact.enthalpy t - t * c.exact.entropy t +
    gasConstant * t * Scalar.log ((p : Exact) / standardPressure)
  /-- It can be computed. -/
  isFinite : Scalar.isFinite (c.exact.gibbs t p) = true

/-- **Every fit is consistent** at every positive temperature and pressure, whatever its coefficients and
however many there are. -/
theorem consistent_of_pos (c : Fit ℝ) {t p : ℝ} (ht : 0 < t) (hp : 0 < p) : c.Consistent t p := by
  have hheat := hasDerivAt_enthalpyOf c.nine ht.ne'
  have hdisorder := hasDerivAt_entropyOf c.nine ht.ne'
  have hcapacity := heatCapacity_exact c ht
  have hlog : Scalar.log ((p : Exact) / standardPressure) = ((Real.log (p / 100000) : ℝ) : Exact) := by
    rw [div_standardPressure, Exact.log_coe (by positivity)]
  refine {
    enthalpy := .of_pos ht (fun u hu => enthalpy_exact c hu) hcapacity (hheat.const_mul molarGas)
    entropy := .of_pos ht (fun u hu => entropy_exact c hu) ?_ (hdisorder.const_mul molarGas)
    gibbs := .of_pos ht (fun u hu => gibbs_exact c hu hp) ?_
      (((hheat.const_mul molarGas).fun_sub
        ((hasDerivAt_id' t).fun_mul (hdisorder.const_mul molarGas))).fun_add
          (((hasDerivAt_id' t).const_mul molarGas).mul_const _))
    potential := .of_pos ht (fun u hu => potential_exact c hu) ?_
      ((hheat.fun_div (hasDerivAt_id' t) ht.ne').fun_sub hdisorder)
    gibbs_eq := rfl
    isFinite := by rw [gibbs_exact c ht hp, Exact.isFinite_coe] }
  · rw [hcapacity, Exact.div_coe _ ht.ne', mul_div_assoc]
  · rw [entropy_exact c ht, hlog, gasConstant_eq, Exact.neg_coe, Exact.mul_coe, Exact.add_coe,
      Exact.coe_inj]
    field_simp
    ring
  · have hscale : molarGas * (t * t) ≠ 0 := by
      have := molarGas_pos
      positivity
    rw [enthalpy_exact c ht, gasConstant_eq, Exact.neg_coe, Exact.mul_coe, Exact.mul_coe,
      Exact.div_coe _ hscale, Exact.coe_inj]
    have hgas := molarGas_pos.ne'
    field_simp
    ring

/-- The fit of a gas of single atoms, whose heat capacity is the same at all temperatures; in seven
coefficients or in nine. -/
noncomputable def monatomic (inNine : Bool) : Fit ℝ where
  first := if inNine then 0 else 2.5
  rest := if inNine then [0, 2.5, 0, 0, 0, 0, -745.0, 4.0] else [0, 0, 0, 0, -745.0, 4.0]

/-- At room temperature and two bars, in both layouts. -/
theorem consistent_of_pos_monatomic :
    ((monatomic false).exact.heatCapacity (300 : ℝ) = ((molarGas * 2.5 : ℝ) : Exact) ∧
      (monatomic false).Consistent 300 200000) ∧
    (monatomic true).exact.heatCapacity (300 : ℝ) = ((molarGas * 2.5 : ℝ) : Exact) ∧
      (monatomic true).Consistent 300 200000 := by
  have hcapacity : ∀ inNine : Bool, capacityOf (monatomic inNine).nine 300 = 2.5 := by
    intro inNine
    cases inNine <;> simp [nine, isNine, get, toList, monatomic, capacityOf]
  refine ⟨⟨?_, consistent_of_pos _ (by norm_num) (by norm_num)⟩, ?_,
    consistent_of_pos _ (by norm_num) (by norm_num)⟩
  · rw [heatCapacity_exact _ (by norm_num), hcapacity]
  · rw [heatCapacity_exact _ (by norm_num), hcapacity]

end Fit

end GibbsNewton
