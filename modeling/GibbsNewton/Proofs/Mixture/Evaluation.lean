import GibbsNewton.Proofs.Mixture.Evaluable
import GibbsNewton.Proofs.Mixture.Real

/-!
# What phases mean for a mixture

A mixture made of some phases has, at a species, the logarithmic activity that the one phase listing it
gives: the share of the species in the phase if there are others in it, and the pressure if it is a gas.
This says nothing about an order, so the phases can be listed in any order, and the species of a phase in
any order, without a change to the Gibbs energy or its derivatives.

Sums over a phase are sums of exact values here, for which the order of the terms does not matter even
where some term is undefined.

## Main definitions

* `PhaseSpec.logActivity` — the logarithmic activity of a species of a phase, from its specification.
* `PhaseSpec.Reordered` — the same phases in another order, with their species in other orders.
* `Mixture.Evaluates` — a mixture has the values that its phases give.
* `Mixture.SameValues` — two mixtures have the same Gibbs energy and derivatives.

## Main results

* `Mixture.MadeOf.evaluates` — the values of a mixture.
* `Mixture.MadeOf.sameValues` — **orders do not matter.**
* `Mixture.acceptance_and_evaluation` — which phases make a mixture, and what it then computes.
-/

namespace GibbsNewton

variable {n : ℕ}

/-! ### Specifications -/

namespace PhaseSpec

/-- The amount of matter in a phase. -/
def whole (p : PhaseSpec) (s : Fin n → ℝ) : ℝ := ∑ i with (i.val : ℤ) ∈ p.species, s i

/-- The logarithmic activity of a species of a phase at some pressure, where the logarithms see the amounts
`s`. -/
noncomputable def logActivity (p : PhaseSpec) (s : Fin n → ℝ) (P : ℝ) (i : Fin n) : Exact :=
  (if 2 ≤ p.species.length then Scalar.log (s i : Exact) - Scalar.log (p.whole s : Exact) else 0) +
    if p.kind = "gas" then Scalar.log ((P / 1e5 : ℝ) : Exact) else 0

/-- Where the logarithms see positive amounts, an activity is a real number. -/
theorem logActivity_of_pos {p : PhaseSpec} {s : Fin n → ℝ} {P : ℝ} {i : Fin n} (hs : ∀ j, 0 < s j)
    (hP : 0 < P) (hi : (i.val : ℤ) ∈ p.species) :
    p.logActivity s P i = (((if 2 ≤ p.species.length then Real.log (s i) - Real.log (p.whole s) else 0) +
      if p.kind = "gas" then Real.log (P / 1e5) else 0 : ℝ) : Exact) := by
  have hwhole : 0 < p.whole s := Finset.sum_pos (fun j _ => hs j) ⟨i, by simpa using hi⟩
  rw [logActivity, Exact.log_coe (hs i), Exact.log_coe hwhole, Exact.log_coe (by positivity)]
  split <;> split <;> simp

/-- Two listings of one phase: of one kind and with the same species, in some order. -/
structure Like (p p' : PhaseSpec) : Prop where
  kind_eq : p.kind = p'.kind
  species_perm : p.species.Perm p'.species

/-- The same phases in another order, with their species in other orders. -/
def Reordered (specs specs' : List PhaseSpec) : Prop :=
  ∃ between, specs.Perm between ∧ List.Forall₂ Like between specs'

theorem Like.symm {p p' : PhaseSpec} (h : p.Like p') : p'.Like p := ⟨h.kind_eq.symm, h.species_perm.symm⟩

variable {specs specs' : List PhaseSpec}

theorem Reordered.symm (h : Reordered specs specs') : Reordered specs' specs := by
  obtain ⟨between, hperm, hlike⟩ := h
  have hflip : List.Forall₂ Like specs' between := (hlike.imp fun _ _ => Like.symm).flip
  have hcomp : Relation.Comp (List.Forall₂ Like) List.Perm specs' specs := ⟨between, hflip, hperm.symm⟩
  rwa [List.forall₂_comp_perm_eq_perm_comp_forall₂] at hcomp

/-- Every phase is listed again. -/
theorem Reordered.exists_like (h : Reordered specs specs') {p : PhaseSpec} (hp : p ∈ specs) :
    ∃ p' ∈ specs', p.Like p' := by
  obtain ⟨between, hperm, hlike⟩ := h
  exact exists_mem_of_forall₂ hlike (hperm.mem_iff.mp hp)

/-- Together the phases list the same species. -/
theorem Reordered.perm_species (h : Reordered specs specs') :
    (specs.flatMap species).Perm (specs'.flatMap species) := by
  obtain ⟨between, hperm, hlike⟩ := h
  refine (hperm.flatMap_right species).trans (List.Perm.flatten_congr ?_)
  rw [List.forall₂_map_left_iff, List.forall₂_map_right_iff]
  exact hlike.imp fun _ _ => Like.species_perm

/-- Sharing out the species does not depend on the orders. -/
theorem Reordered.shareOut (h : Reordered specs specs') (hshare : ShareOut n specs) :
    ShareOut n specs' := by
  rw [shareOut_iff_perm] at hshare ⊢
  exact h.perm_species.symm.trans hshare

/-- That no gas is without species does not depend on the orders. -/
theorem Reordered.gasesFilled (h : Reordered specs specs') (hfilled : GasesFilled specs') :
    GasesFilled specs := by
  intro p hp hgas hnil
  obtain ⟨p', hp', hlike⟩ := h.exists_like hp
  exact hfilled p' hp' (hlike.kind_eq ▸ hgas) (List.nil_perm.mp (hnil ▸ hlike.species_perm))

end PhaseSpec

/-! ### Phases -/

namespace Phase

variable {q q' : Phase n}

@[simp] theorem mem_toSpec_species {i : Fin n} : (i.val : ℤ) ∈ q.toSpec.species ↔ i ∈ q.species :=
  List.mem_map_of_injective injective_number

/-- The amount of matter in a phase does not depend on the order of its species. -/
theorem total_perm (h : q.species.Perm q'.species) (s : Vec Exact n) : q.total s = q'.total s :=
  h.foldl_eq' (fun _ _ _ _ _ => Exact.add_right_comm _ _ _) 0

theorem whole_toSpec (s : Fin n → ℝ) : q.toSpec.whole s = q.amount s := by
  rw [PhaseSpec.whole, amount]
  congr 1
  ext i
  simp

/-- Listings of one phase have the same species. -/
theorem species_perm_of_like (h : q.toSpec.Like q'.toSpec) : q.species.Perm q'.species :=
  (List.map_perm_map_iff injective_number).mp h.species_perm

theorem isGas_eq_of_like (h : q.toSpec.Like q'.toSpec) : q.isGas = q'.isGas :=
  congrArg (· == "gas") h.kind_eq

theorem isMixed_eq_of_like (h : q.toSpec.Like q'.toSpec) : q.isMixed = q'.isMixed := by
  rw [isMixed, isMixed, (species_perm_of_like h).length_eq]

end Phase

/-! ### Mixtures -/

namespace Mixture

/-- A mixture has, at the amounts `a`, the values that the phases it is made of give. -/
structure Evaluates (x : Mixture Exact n) (u : Fin n → ℝ) (specs : List PhaseSpec) (P ε : ℝ)
    (a : Fin n → ℝ) : Prop where
  logActivity_eq : ∀ p ∈ specs, ∀ i : Fin n, (i.val : ℤ) ∈ p.species →
    x.logActivities (Vec.ofReal a) i = p.logActivity (fun j => max (a j) ε) P i
  /-- The chemical potentials are the standard ones with the logarithmic activities added. -/
  potentials_eq : x.potentials? (Vec.ofReal a) =
    some ((Vec.ofReal u).add (x.logActivities (Vec.ofReal a)))
  /-- The Gibbs energy is that of the amounts at their chemical potentials. -/
  energy_eq : x.energy? (Vec.ofReal a) =
    some ((Vec.ofReal a).dot ((Vec.ofReal u).add (x.logActivities (Vec.ofReal a))))

/-- Two mixtures have the same Gibbs energy, chemical potentials and second derivatives, at all
amounts. -/
structure SameValues (x y : Mixture Exact n) : Prop where
  energy_eq : ∀ a, y.energy? a = x.energy? a
  potentials_eq : ∀ a, y.potentials? a = x.potentials? a
  curvature_eq : ∀ a, y.curvature a = x.curvature a

section

variable {α : Type} {x : Mixture α n} {u : Vec α n} {specs : List PhaseSpec} {P ε : α}

/-- The phase of a specification. -/
theorem MadeOf.exists_phase (h : x.MadeOf u specs P ε) {p : PhaseSpec} (hp : p ∈ specs) :
    ∃ q ∈ x.phases, q.toSpec = p := by
  rw [← h.phases_eq] at hp
  exact List.mem_map.mp hp

theorem MadeOf.toSpec_mem (h : x.MadeOf u specs P ε) {q : Phase n} (hq : q ∈ x.phases) :
    q.toSpec ∈ specs := by
  rw [← h.phases_eq]
  exact List.mem_map_of_mem hq

/-- **A species has one phase**: it is in one of those listed and in none before or after this one. -/
theorem MadeOf.exists_split (h : x.MadeOf u specs P ε) (i : Fin n) :
    ∃ before p after, specs = before ++ p :: after ∧ (i.val : ℤ) ∈ p.species ∧
      ∀ r ∈ before ++ after, (i.val : ℤ) ∉ r.species := by
  obtain ⟨before, q, after, hphases, hi, hbefore, hafter⟩ :=
    exists_split_of_isPartition x.partition i
  refine ⟨before.map Phase.toSpec, q.toSpec, after.map Phase.toSpec, ?_, Phase.mem_toSpec_species.mpr hi,
    fun r hr => ?_⟩
  · rw [← h.phases_eq, hphases, List.map_append, List.map_cons]
  · rw [← List.map_append] at hr
    obtain ⟨p, hp, rfl⟩ := List.mem_map.mp hr
    rw [Phase.mem_toSpec_species]
    rcases List.mem_append.mp hp with hp | hp
    · exact hbefore p hp
    · exact hafter p hp

end

variable {x y : Mixture Exact n} {specs specs' : List PhaseSpec}

section

variable {u : Fin n → ℝ} {P ε : ℝ} (h : x.MadeOf (Vec.ofReal u) specs (P : Exact) ε)

include h

theorem MadeOf.logActivities_eq {p : PhaseSpec} (hp : p ∈ specs) {i : Fin n}
    (hi : (i.val : ℤ) ∈ p.species) (a : Fin n → ℝ) :
    x.logActivities (Vec.ofReal a) i = p.logActivity (fun j => max (a j) ε) P i := by
  obtain ⟨q, hq, rfl⟩ := h.exists_phase hp
  have hraised : x.raised (Vec.ofReal a) = Vec.ofReal fun j => max (a j) ε := by
    apply Vec.ext
    simp [raised, h.floor_eq]
  have hmixed : q.isMixed = true ↔ 2 ≤ q.toSpec.species.length := by
    rw [Phase.isMixed_iff, Phase.toSpec, List.length_map]
  have hgas : q.isGas = true ↔ q.toSpec.kind = "gas" := beq_iff_eq
  have hbar : (100000 : ℝ) = 1e5 := by norm_num
  rw [logActivities_apply x _ hq (Phase.mem_toSpec_species.mp hi), hraised, h.pressure_eq,
    div_standardPressure, hbar, Phase.total_ofReal (nodup_of_isPartition x.partition hq),
    Vec.ofReal_apply, PhaseSpec.logActivity, Phase.whole_toSpec]
  simp only [hmixed, hgas]
  split
  · rfl
  · rw [Exact.zero_eq, Exact.add_zero]

/-- **The values of a mixture** are those of its phases, if none of them is empty. -/
theorem MadeOf.evaluates (hne : ∀ p ∈ specs, p.species ≠ []) (a : Fin n → ℝ) :
    x.Evaluates u specs P ε a := by
  have hevaluable : x.isEvaluable = true := h.isEvaluable_iff.mpr fun p hp _ => hne p hp
  have hpotentials : x.potentials (Vec.ofReal a) =
      (Vec.ofReal u).add (x.logActivities (Vec.ofReal a)) := by
    rw [potentials, h.standard_eq]
  exact {
    logActivity_eq := fun p hp i hi => h.logActivities_eq hp hi a
    potentials_eq := by rw [potentials?_eq, if_pos hevaluable, hpotentials]
    energy_eq := by rw [energy?_eq, if_pos hevaluable, energy, hpotentials] }

end

section

variable {u : Vec Exact n} {P ε : Exact} (hx : x.MadeOf u specs P ε) (hy : y.MadeOf u specs' P ε)
  (hre : PhaseSpec.Reordered specs specs')

include hx hy hre

/-- A species is in listings of one phase. -/
theorem MadeOf.exists_like (i : Fin n) : ∃ q ∈ x.phases, ∃ q' ∈ y.phases,
    q.toSpec.Like q'.toSpec ∧ i ∈ q.species ∧ i ∈ q'.species := by
  have hq := x.phaseOf_mem i
  obtain ⟨p', hp', hlike⟩ := hre.exists_like (hx.toSpec_mem hq)
  obtain ⟨q', hq', rfl⟩ := hy.exists_phase hp'
  exact ⟨x.phaseOf i, hq, q', hq', hlike, x.mem_phaseOf i,
    (Phase.species_perm_of_like hlike).mem_iff.mp (x.mem_phaseOf i)⟩

/-- **Orders do not matter** for what a mixture computes. -/
theorem MadeOf.sameValues : x.SameValues y := by
  have hraised : ∀ a, y.raised a = x.raised a := fun a => by rw [raised, raised, hx.floor_eq, hy.floor_eq]
  -- both mixtures read an entry off listings of one phase, whatever came before and after these
  have hactivities : ∀ a, y.logActivities a = x.logActivities a := by
    intro a
    apply Vec.ext
    intro i
    obtain ⟨q, hq, q', hq', hlike, hi, hi'⟩ := hx.exists_like hy hre i
    rw [logActivities_apply y a hq' hi', logActivities_apply x a hq hi, hraised, hx.pressure_eq,
      hy.pressure_eq, Phase.isMixed_eq_of_like hlike, Phase.isGas_eq_of_like hlike,
      Phase.total_perm (Phase.species_perm_of_like hlike)]
  have hpotentials : ∀ a, y.potentials a = x.potentials a := fun a => by
    rw [potentials, potentials, hactivities, hx.standard_eq, hy.standard_eq]
  have hevaluable : y.isEvaluable = x.isEvaluable := by
    rw [Bool.eq_iff_iff, hx.isEvaluable_iff, hy.isEvaluable_iff]
    exact ⟨hre.gasesFilled, hre.symm.gasesFilled⟩
  refine ⟨fun a => ?_, fun a => ?_, fun a => ?_⟩
  · rw [energy?_eq, energy?_eq, hevaluable, energy, energy, hpotentials]
  · rw [potentials?_eq, potentials?_eq, hevaluable, hpotentials]
  · apply Mat.ext_apply
    intro i j
    obtain ⟨q, hq, q', hq', hlike, hi, hi'⟩ := hx.exists_like hy hre i
    have hcontains : q'.species.contains j = q.species.contains j := by
      rw [Bool.eq_iff_iff, List.contains_iff_mem, List.contains_iff_mem]
      exact (Phase.species_perm_of_like hlike).mem_iff.symm
    rw [curvature_apply y a hq' hi', curvature_apply x a hq hi, hraised, hcontains,
      Phase.isMixed_eq_of_like hlike, Phase.total_perm (Phase.species_perm_of_like hlike)]

end

/-- **Which phases make a mixture, and what it then computes.**  Phases make a mixture exactly when they
list every species once and nothing else, which their sorted numbers decide; all others are refused.  The
mixture has the values that the phases give, each species having one phase, and phases in other orders
make a mixture of the same values. -/
theorem acceptance_and_evaluation (u : Fin n → ℝ) (specs : List PhaseSpec) (P ε : ℝ) :
    ((∃ x, ofSpecs (Vec.ofReal u) specs (P : Exact) ε = .ok x) ↔ PhaseSpec.ShareOut n specs) ∧
    (PhaseSpec.ShareOut n specs ↔
      (PartitionError.ofSpecs n specs).listed = (List.range n).map Int.ofNat) ∧
    (¬PhaseSpec.ShareOut n specs →
      ofSpecs (Vec.ofReal u) specs (P : Exact) ε = .error (.ofSpecs n specs)) ∧
    ∀ x, ofSpecs (Vec.ofReal u) specs (P : Exact) ε = .ok x →
      (∀ i : Fin n, ∃ before p after, specs = before ++ p :: after ∧ (i.val : ℤ) ∈ p.species ∧
        ∀ r ∈ before ++ after, (i.val : ℤ) ∉ r.species) ∧
      ((∀ p ∈ specs, p.species ≠ []) → ∀ a, x.Evaluates u specs P ε a) ∧
      ∀ specs', PhaseSpec.Reordered specs specs' →
        ∃ y, ofSpecs (Vec.ofReal u) specs' (P : Exact) ε = .ok y ∧ x.SameValues y := by
  refine ⟨exists_ofSpecs_iff, PhaseSpec.shareOut_iff_listed, ofSpecs_eq_error, fun x hmade => ?_⟩
  have hx := ofSpecs_eq_ok_iff.mp hmade
  refine ⟨hx.exists_split, hx.evaluates, fun specs' hre => ?_⟩
  obtain ⟨y, hy⟩ := exists_ofSpecs_iff.mpr (hre.shareOut hx.shareOut)
  exact ⟨y, hy, hx.sameValues (ofSpecs_eq_ok_iff.mp hy) hre⟩

/-- Two gases and a solid, the gases listed in another order than their numbers. -/
def gasesAndSolid : List PhaseSpec := [⟨"gas", [2, 0], "gas"⟩, ⟨"solid", [1], "solid"⟩]

/-- The same in other orders. -/
def solidAndGases : List PhaseSpec := [⟨"solid", [1], "solid"⟩, ⟨"gas", [0, 2], "gas"⟩]

/-- At two bars, with one gas below the floor: each gas has a share of what is seen of both, the solid has
none.  A species left out, one listed twice and a number below zero are refused. -/
theorem acceptance_and_evaluation_gasesAndSolid :
    (∃ x y, ofSpecs (Vec.ofReal ![0, 1, 0]) gasesAndSolid ((200000 : ℝ) : Exact) ((1 : ℝ) : Exact) = .ok x ∧
      ofSpecs (Vec.ofReal ![0, 1, 0]) solidAndGases ((200000 : ℝ) : Exact) ((1 : ℝ) : Exact) = .ok y ∧
      x.SameValues y ∧ x.logActivities (Vec.ofReal ![3, 5, -1]) =
        Vec.ofReal ![Real.log 3 - Real.log 4 + Real.log 2, 0, Real.log 1 - Real.log 4 + Real.log 2]) ∧
    ofSpecs (Vec.ofReal ![0, 0]) [⟨"gas", [0], "gas"⟩] ((1 : ℝ) : Exact) ((1 : ℝ) : Exact) =
      .error (.ofSpecs 2 [⟨"gas", [0], "gas"⟩]) ∧
    ofSpecs (Vec.ofReal ![0, 0]) [⟨"gas", [0, 1, 1], "gas"⟩] ((1 : ℝ) : Exact) ((1 : ℝ) : Exact) =
      .error (.ofSpecs 2 [⟨"gas", [0, 1, 1], "gas"⟩]) ∧
    ofSpecs (Vec.ofReal ![0, 0]) [⟨"gas", [0, 1, -1], "gas"⟩] ((1 : ℝ) : Exact) ((1 : ℝ) : Exact) =
      .error (.ofSpecs 2 [⟨"gas", [0, 1, -1], "gas"⟩]) := by
  have hrefused : ∀ species : List ℤ, ¬PhaseSpec.ShareOut 2 [⟨"gas", species, "gas"⟩] →
      ofSpecs (Vec.ofReal ![0, 0]) [⟨"gas", species, "gas"⟩] ((1 : ℝ) : Exact) ((1 : ℝ) : Exact) =
        .error (.ofSpecs 2 [⟨"gas", species, "gas"⟩]) := fun species =>
    (acceptance_and_evaluation ![0, 0] [⟨"gas", species, "gas"⟩] 1 1).2.2.1
  refine ⟨?_, hrefused _ fun h => absurd (h.once 1 (by decide)) (by decide),
    hrefused _ fun h => absurd (h.once 1 (by decide)) (by decide),
    hrefused _ fun h => absurd (h.known (-1) (by decide)) (by decide)⟩
  have hshare : PhaseSpec.ShareOut 3 gasesAndSolid := ⟨by decide, by decide⟩
  have hre : PhaseSpec.Reordered gasesAndSolid solidAndGases :=
    ⟨[⟨"solid", [1], "solid"⟩, ⟨"gas", [2, 0], "gas"⟩], List.Perm.swap _ _ _,
      .cons ⟨rfl, .refl _⟩ (.cons ⟨rfl, List.Perm.swap _ _ _⟩ .nil)⟩
  obtain ⟨hiff, -, -, hmade⟩ := acceptance_and_evaluation ![0, 1, 0] gasesAndSolid 200000 1
  obtain ⟨x, hx⟩ := hiff.mpr hshare
  obtain ⟨-, hevaluates, hreordered⟩ := hmade x hx
  obtain ⟨y, hy, hsame⟩ := hreordered solidAndGases hre
  refine ⟨x, y, hx, hy, hsame, ?_⟩
  have hvalue := (hevaluates (by decide) ![3, 5, -1]).logActivity_eq
  have hseen : (fun j => max ((![3, 5, -1] : Fin 3 → ℝ) j) 1) = ![3, 5, 1] := by
    funext j
    fin_cases j <;> norm_num
  have hpos : ∀ j, 0 < (![3, 5, 1] : Fin 3 → ℝ) j := fun j => by fin_cases j <;> norm_num
  have hwhole : PhaseSpec.whole ⟨"gas", [2, 0], "gas"⟩ (![3, 5, 1] : Fin 3 → ℝ) = 4 := by
    calc _ = (3 : ℝ) + 1 := by simp [PhaseSpec.whole, Finset.sum_filter, Fin.sum_univ_three]
      _ = 4 := by norm_num
  have hbars : (200000 : ℝ) / 1e5 = 2 := by norm_num
  have hgas : ∀ i : Fin 3, (i.val : ℤ) ∈ [2, 0] → x.logActivities (Vec.ofReal ![3, 5, -1]) i =
      ((Real.log ((![3, 5, 1] : Fin 3 → ℝ) i) - Real.log 4 + Real.log 2 : ℝ) : Exact) := by
    intro i hi
    rw [hvalue ⟨"gas", [2, 0], "gas"⟩ List.mem_cons_self i hi, hseen,
      PhaseSpec.logActivity_of_pos hpos (by norm_num) hi, hwhole, hbars]
    simp
  have hsolid : x.logActivities (Vec.ofReal ![3, 5, -1]) 1 = ((0 : ℝ) : Exact) := by
    rw [hvalue ⟨"solid", [1], "solid"⟩ (by decide) 1 (by decide), hseen,
      PhaseSpec.logActivity_of_pos hpos (by norm_num) (by decide)]
    simp
  apply Vec.ext
  intro i
  rw [Vec.ofReal_apply]
  fin_cases i
  · exact hgas 0 (by decide)
  · exact hsolid
  · exact hgas 2 (by decide)

end Mixture

end GibbsNewton
