import GibbsNewton.Proofs.Mixture.Acceptance
import GibbsNewton.Proofs.Linear.Real

/-!
# Which mixtures can be evaluated

A mixture is evaluated phase by phase, and a phase without species has no index to put its part in with.
It is asked for one only if it is a gas: shares are put in for two or more species, the pressure for any
number of them.  So the chemical potentials and the Gibbs energy come out exactly when no gas is without
species, and the second derivatives, which have no term for the pressure, come out always.

That phases share out the species does not exclude empty ones, and the single gas that stands for phases
that are not given is empty itself if there are no species.

## Main definitions

* `PhaseSpec.GasesFilled` — no gas is without species.
* `Mixture.EvaluatesIff` — what an evaluation comes to, and when.

## Main results

* `Phase.putActivities?_eq`, `Phase.putCurvature?_eq` — the turn of one phase.
* `Mixture.logActivities?_eq`, `Mixture.curvature?_eq` — all phases, one after the other.
* `Mixture.evaluatesIff_gasesFilled` — **a mixture can be evaluated exactly if no gas is without species.**
* `Mixture.not_evaluable_emptyGas` — phases that make a mixture, and no Gibbs energy.
-/

namespace GibbsNewton

variable {α : Type} {n : ℕ}

/-! ### The turn of one phase -/

namespace Phase

variable {p : Phase n}

theorem index?_of_ne_nil (h : p.species ≠ []) : p.index? = some p.species := by
  rw [index?, List.isEmpty_eq_false_iff.mpr h]
  rfl

theorem index?_of_nil (h : p.species = []) : p.index? = none := by
  rw [index?, List.isEmpty_iff.mpr h]
  rfl

/-- Only species that there are can dilute each other. -/
theorem isMixed_of_nil (h : p.species = []) : p.isMixed = false := by
  rw [isMixed, h]
  rfl

theorem isEmptyGas_of_nil (h : p.species = []) : p.isEmptyGas = p.isGas := by
  rw [isEmptyGas, List.isEmpty_iff.mpr h, Bool.and_true]

theorem isEmptyGas_of_ne_nil (h : p.species ≠ []) : p.isEmptyGas = false := by
  rw [isEmptyGas, List.isEmpty_eq_false_iff.mpr h, Bool.and_false]

variable [Scalar α] (s : Vec α n) (t : α) (L : Vec α n) (H : Mat α n n)

/-- **The turn of one phase**: it puts in what the phase gives, unless it has to put in a pressure for no
species. -/
theorem putActivities?_eq :
    p.putActivities? s t L = if p.isEmptyGas then none else some (p.putActivities s t L) := by
  by_cases hp : p.species = []
  · -- no share is put in, and a pressure finds no place
    have hkept : p.putActivities s t L = L := Vec.ext fun i => putActivities_of_notMem (by simp [hp])
    rw [putActivities?, isMixed_of_nil hp, index?_of_nil hp, isEmptyGas_of_nil hp, hkept]
    rfl
  · -- there is an index for both, and an entry has its share and its pressure, one, or none
    rw [putActivities?, index?_of_ne_nil hp, isEmptyGas_of_ne_nil hp]
    cases hmixed : p.isMixed <;> cases hgas : p.isGas <;>
      refine congrArg some (Vec.ext fun i => ?_) <;> by_cases hi : i ∈ p.species <;>
      simp [putActivities, addTerm, putShares, total, hmixed, hgas, hi]

/-- The block of a phase is put in for two or more species, and these are an index. -/
theorem putCurvature?_eq : p.putCurvature? s H = some (p.putCurvature s H) := by
  unfold putCurvature? putCurvature
  cases hmixed : p.isMixed with
  | false => rfl
  | true =>
    have hp : p.species ≠ [] := fun h => by simp [isMixed_of_nil h] at hmixed
    rw [index?_of_ne_nil hp]
    rfl

end Phase

/-! ### All phases -/

/-- A fold with steps that fail at some items comes out exactly if it meets none of them. -/
theorem Option.foldlM_eq_ite {β σ : Type} {bad : β → Bool} {step : σ → β → σ} (xs : List β) (b : σ) :
    xs.foldlM (fun b x => if bad x then none else some (step b x)) b =
      if xs.all fun x => !bad x then some (xs.foldl step b) else none := by
  induction xs generalizing b with
  | nil => rfl
  | cons x xs ih =>
    rw [List.foldlM_cons, List.all_cons, List.foldl_cons]
    cases bad x with
    | true => rfl
    | false => exact ih (step b x)

namespace Mixture

section

variable [Scalar α] (x : Mixture α n) (a : Vec α n)

/-- **The logarithmic activities come out** exactly if no gas is without species. -/
theorem logActivities?_eq :
    x.logActivities? a = if x.isEvaluable then some (x.logActivities a) else none := by
  simp only [logActivities?, Phase.putActivities?_eq]
  exact Option.foldlM_eq_ite x.phases _

/-- The second derivatives come out whatever the phases. -/
theorem curvature?_eq : x.curvature? a = some (x.curvature a) := by
  simp only [curvature?, Phase.putCurvature?_eq]
  exact List.foldlM_pure

theorem potentials?_eq :
    x.potentials? a = if x.isEvaluable then some (x.potentials a) else none := by
  rw [potentials?, logActivities?_eq]
  split <;> rfl

theorem energy?_eq : x.energy? a = if x.isEvaluable then some (x.energy a) else none := by
  rw [energy?, potentials?_eq]
  split <;> rfl

end

end Mixture

/-! ### Phases as a caller gives them -/

namespace PhaseSpec

/-- No gas is without species. -/
def GasesFilled (specs : List PhaseSpec) : Prop := ∀ p ∈ specs, p.kind = "gas" → p.species ≠ []

instance instDecidableGasesFilled (specs : List PhaseSpec) : Decidable (GasesFilled specs) :=
  inferInstanceAs (Decidable (∀ p ∈ specs, p.kind = "gas" → p.species ≠ []))

/-- The single gas of all species is filled unless there are none. -/
theorem gasesFilled_singleGas : GasesFilled [singleGas n] ↔ 0 < n := by
  simp [GasesFilled, singleGas, Nat.pos_iff_ne_zero]

/-- The single gas of all species shares them out. -/
theorem shareOut_singleGas : ShareOut n [singleGas n] := by
  rw [shareOut_iff_perm]
  simp [singleGas]

end PhaseSpec

namespace Mixture

/-- A mixture can be evaluated exactly when none of its gases is without species. -/
theorem MadeOf.isEvaluable_iff {x : Mixture α n} {u : Vec α n} {specs : List PhaseSpec} {P ε : α}
    (h : x.MadeOf u specs P ε) : x.isEvaluable = true ↔ PhaseSpec.GasesFilled specs := by
  rw [PhaseSpec.GasesFilled, ← h.phases_eq, isEvaluable, List.all_eq_true, List.forall_mem_map]
  apply forall₂_congr
  intro q _
  simp [Phase.isEmptyGas, Phase.isGas, Phase.toSpec, imp_iff_not_or]

variable [Scalar α]

/-- What an evaluation of a mixture comes to: the Gibbs energy and the chemical potentials if `c` holds,
nothing in their place if it does not, and the second derivatives in both cases. -/
structure EvaluatesIff (x : Mixture α n) (c : Prop) (a : Vec α n) : Prop where
  /-- The values come out. -/
  values : c → x.energy? a = some (x.energy a) ∧ x.potentials? a = some (x.potentials a)
  /-- The evaluation stops. -/
  stopped : ¬c → x.energy? a = none ∧ x.potentials? a = none
  /-- The second derivatives come out. -/
  curvature_eq : x.curvature? a = some (x.curvature a)

theorem evaluatesIff_isEvaluable (x : Mixture α n) (a : Vec α n) :
    x.EvaluatesIff (x.isEvaluable = true) a where
  values h := by simp [energy?_eq, potentials?_eq, h]
  stopped h := by simp [energy?_eq, potentials?_eq, h]
  curvature_eq := x.curvature?_eq a

/-- **A mixture can be evaluated exactly if no gas is without species**, at whatever amounts and whatever
its standard potentials, pressure and floor.  If no phases are given there is always a mixture, and it can be
evaluated exactly if it has species. -/
theorem evaluatesIff_gasesFilled (u : Vec α n) (P ε : α) :
    (∀ specs x, ofSpecs u specs P ε = .ok x →
      ∀ a, x.EvaluatesIff (PhaseSpec.GasesFilled specs) a) ∧
    ∃ x, ofSpecs u [PhaseSpec.singleGas n] P ε = .ok x ∧ ∀ a, x.EvaluatesIff (0 < n) a := by
  have hmade : ∀ specs x, ofSpecs u specs P ε = .ok x →
      ∀ a, x.EvaluatesIff (PhaseSpec.GasesFilled specs) a := by
    intro specs x hx a
    rw [← (ofSpecs_eq_ok_iff.mp hx).isEvaluable_iff]
    exact x.evaluatesIff_isEvaluable a
  obtain ⟨x, hx⟩ := exists_ofSpecs_iff.mpr PhaseSpec.shareOut_singleGas
  refine ⟨hmade, x, hx, fun a => ?_⟩
  rw [← PhaseSpec.gasesFilled_singleGas]
  exact hmade _ x hx a

/-- A solid without species and a gas of two. -/
def emptySolidAndGas : List PhaseSpec := [⟨"e", [], "solid"⟩, ⟨"g", [1, 0], "gas"⟩]

/-- A gas without species and a gas of one. -/
def emptyGasAndGas : List PhaseSpec := [⟨"e", [], "gas"⟩, ⟨"g", [0], "gas"⟩]

/-- An empty solid does no harm. -/
theorem evaluatesIff_gasesFilled_emptySolid :
    PhaseSpec.GasesFilled emptySolidAndGas ∧
    ∃ x, ofSpecs (Vec.ofReal ![1, 2]) emptySolidAndGas ((100000 : ℝ) : Exact) ((1 / 10 ^ 50 : ℝ) : Exact) =
        .ok x ∧
      x.EvaluatesIff (PhaseSpec.GasesFilled emptySolidAndGas) (Vec.ofReal ![1, 1]) ∧
      x.energy? (Vec.ofReal ![1, 1]) = some (x.energy (Vec.ofReal ![1, 1])) := by
  have hfilled : PhaseSpec.GasesFilled emptySolidAndGas := by decide
  have hshare : PhaseSpec.ShareOut 2 emptySolidAndGas := ⟨by decide, by decide⟩
  obtain ⟨x, hx⟩ := exists_ofSpecs_iff.mpr hshare
  have hevaluates := (evaluatesIff_gasesFilled _ _ _).1 _ x hx (Vec.ofReal ![1, 1])
  exact ⟨hfilled, x, hx, hevaluates, (hevaluates.values hfilled).1⟩

/-- **An empty gas stops the evaluation**: its phases share out the one species, and the mixture that is made
of them has neither a Gibbs energy nor chemical potentials. -/
theorem not_evaluable_emptyGas :
    ∃ x, ofSpecs (Vec.ofReal ![1]) emptyGasAndGas ((100000 : ℝ) : Exact) ((1 / 10 ^ 50 : ℝ) : Exact) =
        .ok x ∧
      ∀ a, x.energy? a = none ∧ x.potentials? a = none := by
  have hshare : PhaseSpec.ShareOut 1 emptyGasAndGas := ⟨by decide, by decide⟩
  obtain ⟨x, hx⟩ := (exists_ofSpecs_iff (u := Vec.ofReal ![1]) (P := ((100000 : ℝ) : Exact))
    (ε := ((1 / 10 ^ 50 : ℝ) : Exact))).mpr hshare
  have hempty : ¬x.isEvaluable = true := by
    rw [(ofSpecs_eq_ok_iff.mp hx).isEvaluable_iff]
    decide
  exact ⟨x, hx, fun a => (x.evaluatesIff_isEvaluable a).stopped hempty⟩

end Mixture

end GibbsNewton
