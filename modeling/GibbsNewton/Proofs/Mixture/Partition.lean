import GibbsNewton.Mixture.Basic
import Mathlib.Algebra.BigOperators.Fin
import Mathlib.Algebra.Order.BigOperators.Group.List
import Mathlib.Data.Real.Basic

/-!
# Sharing out species among phases

Every species of a mixture is in exactly one phase.  Two things follow that all later arguments about
mixtures rest on.  A vector or table that is put together phase by phase has, at the place of a
species, what the phase of this species put there, whatever the other phases did and in whatever order
they came.  And a sum over all species is a sum over the phases of sums over their species.

## Main definitions

* `Phase.members` — the species of a phase as a set.
* `Mixture.phaseOf` — the phase that a species is in.

## Main results

* `Mixture.foldl_phases` — **an entry put together phase by phase is the work of its own phase.**
* `Mixture.logActivities_apply`, `Mixture.curvature_apply` — the entries of what a mixture puts together.
* `Mixture.sum_eq_sum_phases` — **a sum over all species, taken phase by phase.**
-/

namespace GibbsNewton

variable {n : ℕ}

/-- The species of a phase as a set. -/
def Phase.members (q : Phase n) : Finset (Fin n) := q.species.toFinset

@[simp] theorem Phase.mem_members {q : Phase n} {i : Fin n} : i ∈ q.members ↔ i ∈ q.species :=
  List.mem_toFinset

/-- A phase is mixed when it has two or more species. -/
theorem Phase.isMixed_iff {q : Phase n} : q.isMixed = true ↔ 2 ≤ q.species.length :=
  decide_eq_true_iff

/-! ### What one phase puts in -/

namespace Phase

variable {α : Type} [Scalar α] {q : Phase n} {s L : Vec α n} {t : α} {H : Mat α n n} {i j : Fin n}

theorem putActivities_of_mem (hi : i ∈ q.species) :
    q.putActivities s t L i =
      let mixing := if q.isMixed then Scalar.log (s i) - Scalar.log (q.total s) else L i
      if q.isGas then mixing + t else mixing := by
  simp [putActivities, hi]

theorem putActivities_of_notMem (hi : i ∉ q.species) : q.putActivities s t L i = L i := by
  simp [putActivities, hi]

theorem putCurvature_of_mem (hi : i ∈ q.species) :
    q.putCurvature s H i j =
      if q.isMixed && q.species.contains j then (if i = j then 1 / s i else 0) - 1 / q.total s
      else H i j := by
  unfold putCurvature
  cases q.isMixed <;> simp [hi]

theorem putCurvature_of_notMem (hi : i ∉ q.species) : q.putCurvature s H i j = H i j := by
  unfold putCurvature
  split <;> simp [hi]

end Phase

/-! ### Lists of phases -/

section

variable {phases : List (Phase n)}

/-- A species is in one of the phases, and the phases before and after this one do without it. -/
theorem exists_split_of_isPartition (h : isPartition phases = true) (i : Fin n) :
    ∃ before q after, phases = before ++ q :: after ∧ i ∈ q.species ∧
      (∀ p ∈ before, i ∉ p.species) ∧ ∀ p ∈ after, i ∉ p.species := by
  have hcount : (covered phases).count i = 1 := isPartition_iff.mp h i
  have hmem : i ∈ covered phases := by
    rw [← List.count_pos_iff, hcount]
    exact Nat.one_pos
  obtain ⟨q, hq, hi⟩ := List.mem_flatMap.mp hmem
  obtain ⟨before, after, rfl⟩ := List.append_of_mem hq
  rw [covered, List.flatMap_append, List.flatMap_cons, List.count_append, List.count_append] at hcount
  have hone : 0 < q.species.count i := List.count_pos_iff.mpr hi
  have hbefore : (before.flatMap Phase.species).count i = 0 := by omega
  have hafter : (after.flatMap Phase.species).count i = 0 := by omega
  rw [List.count_eq_zero] at hbefore hafter
  exact ⟨before, q, after, rfl, hi, fun p hp hip => hbefore (List.mem_flatMap_of_mem hp hip),
    fun p hp hip => hafter (List.mem_flatMap_of_mem hp hip)⟩

/-- Phases share out all species when they list each of them once, in some order. -/
theorem isPartition_iff_perm : isPartition phases = true ↔ (covered phases).Perm (List.finRange n) := by
  rw [isPartition_iff, List.perm_iff_count]
  apply forall_congr'
  intro i
  rw [List.count_eq_one_of_mem (List.nodup_finRange n) (List.mem_finRange i)]

/-- No phase lists a species twice. -/
theorem nodup_of_isPartition (h : isPartition phases = true) {q : Phase n} (hq : q ∈ phases) :
    q.species.Nodup := by
  have hnodup : (covered phases).Nodup :=
    (isPartition_iff_perm.mp h).nodup_iff.mpr (List.nodup_finRange n)
  exact (List.nodup_flatMap.mp hnodup).1 q hq

/-- A species of two phases is no more than in one. -/
theorem phase_eq_of_mem (h : isPartition phases = true) {p q : Phase n} (hp : p ∈ phases)
    (hq : q ∈ phases) {i : Fin n} (hip : i ∈ p.species) (hiq : i ∈ q.species) : p = q := by
  obtain ⟨before, r, after, rfl, -, hbefore, hafter⟩ := exists_split_of_isPartition h i
  have hone : ∀ {t}, t ∈ before ++ r :: after → i ∈ t.species → t = r := by
    intro t ht hit
    rcases List.mem_append.mp ht with ht | ht
    · exact absurd hit (hbefore t ht)
    · rcases List.mem_cons.mp ht with rfl | ht
      · rfl
      · exact absurd hit (hafter t ht)
  rw [hone hp hip, hone hq hiq]

/-- A phase that does without a species leaves alone what is read off at its place, and so do all
phases that do without it. -/
theorem foldl_eq_of_forall_notMem {σ β : Type} {put : σ → Phase n → σ} {entry : σ → β} {i : Fin n}
    (hkeep : ∀ p T, i ∉ p.species → entry (put T p) = entry T) {ps : List (Phase n)}
    (hps : ∀ p ∈ ps, i ∉ p.species) (T : σ) : entry (ps.foldl put T) = entry T := by
  induction ps generalizing T with
  | nil => rfl
  | cons p ps ih =>
    obtain ⟨hp, hrest⟩ := List.forall_mem_cons.mp hps
    rw [List.foldl_cons, ih hrest, hkeep p T hp]

end

/-! ### Mixtures -/

namespace Mixture

variable {α : Type} (x : Mixture α n)

theorem exists_mem_phases (i : Fin n) : ∃ q ∈ x.phases, i ∈ q.species := by
  obtain ⟨before, q, after, hphases, hi, -⟩ := exists_split_of_isPartition x.partition i
  exact ⟨q, by simp [hphases], hi⟩

/-- The phase that a species is in. -/
def phaseOf (i : Fin n) : Phase n :=
  (x.phases.find? fun q => q.species.contains i).get (by
    rw [List.find?_isSome]
    obtain ⟨q, hq, hi⟩ := x.exists_mem_phases i
    exact ⟨q, hq, by simpa using hi⟩)

theorem phaseOf_mem (i : Fin n) : x.phaseOf i ∈ x.phases := List.get_find?_mem _

theorem mem_phaseOf (i : Fin n) : i ∈ (x.phaseOf i).species := by
  have hfound : x.phases.find? (fun q => q.species.contains i) = some (x.phaseOf i) :=
    (Option.some_get _).symm
  simpa using List.find?_some hfound

variable {x} in
/-- The phase of a species is any phase that lists it. -/
theorem phaseOf_eq {q : Phase n} (hq : q ∈ x.phases) {i : Fin n} (hi : i ∈ q.species) :
    x.phaseOf i = q :=
  phase_eq_of_mem x.partition (x.phaseOf_mem i) hq (x.mem_phaseOf i) hi

/-- **An entry put together phase by phase is the work of its own phase**, if no phase touches the
entry of a species that it does not list. -/
theorem foldl_phases {σ β : Type} {put : σ → Phase n → σ} (i : Fin n) (entry : σ → β) {T : σ} {v : β}
    (hkeep : ∀ p U, i ∉ p.species → entry (put U p) = entry U)
    (hown : ∀ U, entry U = entry T → entry (put U (x.phaseOf i)) = v) :
    entry (x.phases.foldl put T) = v := by
  obtain ⟨before, q, after, hphases, hi, hbefore, hafter⟩ :=
    exists_split_of_isPartition x.partition i
  have hq : x.phaseOf i = q := phaseOf_eq (by simp [hphases]) hi
  rw [hphases, List.foldl_append, List.foldl_cons, foldl_eq_of_forall_notMem hkeep hafter, ← hq]
  exact hown _ (foldl_eq_of_forall_notMem hkeep hbefore T)

section

variable [Scalar α] (a : Vec α n) {q : Phase n} (hq : q ∈ x.phases) {i : Fin n} (hi : i ∈ q.species)

include hq hi

/-- The logarithmic activity of a species is put in by its phase. -/
theorem logActivities_apply :
    x.logActivities a i =
      let mixing :=
        if q.isMixed then Scalar.log (x.raised a i) - Scalar.log (q.total (x.raised a)) else 0
      if q.isGas then mixing + Scalar.log (x.pressure / standardPressure) else mixing := by
  rw [← phaseOf_eq hq hi]
  refine x.foldl_phases i (fun L : Vec α n => L i) (fun p L hip => ?_) fun L hL => ?_
  · exact Phase.putActivities_of_notMem hip
  · rw [Phase.putActivities_of_mem (x.mem_phaseOf i), hL, Vec.const_apply]

/-- The second derivative in two species is put in by the phase of the first one. -/
theorem curvature_apply (j : Fin n) :
    x.curvature a i j =
      if q.isMixed && q.species.contains j then
        (if i = j then 1 / x.raised a i else 0) - 1 / q.total (x.raised a)
      else 0 := by
  rw [← phaseOf_eq hq hi]
  refine x.foldl_phases i (fun H : Mat α n n => H i j) (fun p H hip => ?_) fun H hH => ?_
  · exact Phase.putCurvature_of_notMem hip
  · rw [Phase.putCurvature_of_mem (x.mem_phaseOf i), hH, Vec.const_apply, Vec.const_apply]

end

/-- **A sum over all species, taken phase by phase.** -/
theorem sum_eq_sum_phases (f : Fin n → ℝ) :
    ∑ i, f i = (x.phases.map fun q => ∑ i ∈ q.members, f i).sum := by
  have hphase : ∀ q ∈ x.phases, ∑ i ∈ q.members, f i = (q.species.map f).sum := fun q hq =>
    List.sum_toFinset f (nodup_of_isPartition x.partition hq)
  calc ∑ i, f i = ((List.finRange n).map f).sum := Fin.sum_univ_def f
    _ = ((covered x.phases).map f).sum :=
      (((isPartition_iff_perm.mp x.partition).map f).sum_eq).symm
    _ = (x.phases.map fun q => (q.species.map f).sum).sum := by
      rw [covered, List.map_flatMap, List.flatMap_def, List.sum_flatten, List.map_map]
      rfl
    _ = (x.phases.map fun q => ∑ i ∈ q.members, f i).sum := by
      rw [List.map_congr_left hphase]

/-- What is not negative over each phase is not negative over all species. -/
theorem sum_nonneg_of_phases {f : Fin n → ℝ}
    (h : ∀ q ∈ x.phases, 0 ≤ ∑ i ∈ q.members, f i) : 0 ≤ ∑ i, f i := by
  rw [x.sum_eq_sum_phases]
  apply List.sum_nonneg
  intro t ht
  obtain ⟨q, hq, rfl⟩ := List.mem_map.mp ht
  exact h q hq

end Mixture

end GibbsNewton
