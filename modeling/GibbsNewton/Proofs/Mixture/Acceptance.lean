import GibbsNewton.Proofs.Mixture.Partition
import GibbsNewton.Proofs.Traversal
import Mathlib.Data.List.Sort
import Mathlib.Data.Set.List

/-!
# Which phases make a mixture

A caller lists the species of a phase as whole numbers.  A mixture is made of some phases exactly when
the numbers in them, taken together, are those of all species, each of them once, and then its phases are
the given ones.  All other lists are refused: with a species left out, with one listed twice and with a
number that no species has.  The refusal shows the numbers sorted, and to compare these with the numbers
in their order is the same test.

## Main definitions

* `Phase.toSpec` — a phase as a caller gives it.
* `PhaseSpec.ShareOut` — phases list every species once and nothing else.
* `Mixture.MadeOf` — what a mixture takes over from what it is made of.

## Main results

* `PhaseSpec.shareOut_iff_listed` — the sorted numbers decide.
* `Mixture.ofSpecs_eq_ok_iff` — when a given mixture is the one that is made.
* `Mixture.exists_ofSpecs_iff`, `Mixture.ofSpecs_eq_error` — **phases make a mixture exactly when they
  share out the species**, and are refused otherwise.
-/

namespace GibbsNewton

variable {n : ℕ}

/-! ### Phases and their specifications -/

/-- A phase as a caller gives it. -/
def Phase.toSpec (q : Phase n) : PhaseSpec where
  name := q.name
  species := q.species.map fun i => (i.val : ℤ)
  kind := q.kind

/-- Species of one number are the same. -/
theorem injective_number : Function.Injective fun i : Fin n => (i.val : ℤ) := fun _ _ h =>
  Fin.ext (Int.ofNat_inj.mp h)

theorem speciesOf?_eq_some_iff {k : ℤ} {i : Fin n} : speciesOf? n k = some i ↔ (i.val : ℤ) = k := by
  constructor
  · intro h
    simpa using List.find?_some h
  · rintro rfl
    cases h : speciesOf? n (i.val : ℤ) with
    | none => simpa using List.find?_eq_none.mp h i (List.mem_finRange i)
    | some j => rw [injective_number (by simpa using List.find?_some h : (j.val : ℤ) = i.val)]

theorem Phase.ofSpec?_eq_some_iff {p : PhaseSpec} {q : Phase n} :
    Phase.ofSpec? n p = some q ↔ q.toSpec = p := by
  obtain ⟨name, species, kind⟩ := p
  obtain ⟨name', kind', species'⟩ := q
  simp only [ofSpec?, Option.map_eq_some_iff,
    Option.mapM_eq_some_iff_map fun k i => speciesOf?_eq_some_iff (k := k) (i := i), toSpec, Phase.mk.injEq,
    PhaseSpec.mk.injEq]
  constructor
  · rintro ⟨_, hspecies, rfl, rfl, rfl⟩
    exact ⟨rfl, hspecies, rfl⟩
  · rintro ⟨rfl, hspecies, rfl⟩
    exact ⟨_, hspecies, rfl, rfl, rfl⟩

/-! ### Sharing out -/

namespace PhaseSpec

/-- The phases list every species once, and nothing that is not a species. -/
structure ShareOut (n : ℕ) (specs : List PhaseSpec) : Prop where
  once : ∀ i < n, (specs.flatMap species).count (i : ℤ) = 1
  known : ∀ k ∈ specs.flatMap species, 0 ≤ k ∧ k < n

variable {specs : List PhaseSpec}

theorem nodup_numbers (n : ℕ) : ((List.range n).map Int.ofNat).Nodup :=
  List.nodup_range.map fun _ _ => Int.ofNat.inj

theorem mem_numbers {k : ℤ} : k ∈ (List.range n).map Int.ofNat ↔ 0 ≤ k ∧ k < n := by
  constructor
  · intro h
    obtain ⟨i, hi, rfl⟩ := List.mem_map.mp h
    exact ⟨Int.natCast_nonneg i, Int.ofNat_lt.mpr (List.mem_range.mp hi)⟩
  · rintro ⟨h0, hn⟩
    obtain ⟨i, rfl⟩ := Int.eq_ofNat_of_zero_le h0
    exact List.mem_map_of_mem (List.mem_range.mpr (Int.ofNat_lt.mp hn))

/-- To share out the species is to list their numbers, in some order. -/
theorem shareOut_iff_perm :
    ShareOut n specs ↔ (specs.flatMap species).Perm ((List.range n).map Int.ofNat) := by
  constructor
  · intro h
    rw [List.perm_iff_count]
    intro k
    -- a number is counted once on both sides if it is that of a species, and on neither if not
    by_cases hk : k ∈ (List.range n).map Int.ofNat
    · rw [List.count_eq_one_of_mem (nodup_numbers n) hk]
      obtain ⟨i, hi, rfl⟩ := List.mem_map.mp hk
      exact h.once i (List.mem_range.mp hi)
    · rw [List.count_eq_zero_of_not_mem hk,
        List.count_eq_zero_of_not_mem fun hlisted => hk (mem_numbers.mpr (h.known k hlisted))]
  · intro h
    refine ⟨fun i hi => ?_, fun k hk => mem_numbers.mp (h.mem_iff.mp hk)⟩
    rw [h.count_eq]
    exact List.count_eq_one_of_mem (nodup_numbers n) (List.mem_map_of_mem (List.mem_range.mpr hi))

/-- **The sorted numbers decide**: phases share out the species when these are the numbers of the species
in their order. -/
theorem shareOut_iff_listed :
    ShareOut n specs ↔ (PartitionError.ofSpecs n specs).listed = (List.range n).map Int.ofNat := by
  have hsort := List.mergeSort_perm (specs.flatMap species) fun j k => decide (j ≤ k)
  rw [shareOut_iff_perm]
  constructor
  · intro h
    have hordered : ((List.range n).map Int.ofNat).Pairwise (· ≤ ·) :=
      List.pairwise_map.mpr ((List.pairwise_lt_range).imp fun h => Int.ofNat_le.mpr (Nat.le_of_lt h))
    exact (hsort.trans h).eq_of_sortedLE List.sortedLE_mergeSort hordered.sortedLE
  · intro h
    exact hsort.symm.trans (List.Perm.of_eq h)

end PhaseSpec

/-- Phases share out the species exactly when their specifications do. -/
theorem shareOut_map_toSpec {phases : List (Phase n)} :
    PhaseSpec.ShareOut n (phases.map Phase.toSpec) ↔ isPartition phases = true := by
  have hlisted : (phases.map Phase.toSpec).flatMap PhaseSpec.species =
      (covered phases).map fun i => (i.val : ℤ) := by
    rw [List.flatMap_map, covered, List.map_flatMap]
    rfl
  have hnumbers : (List.range n).map Int.ofNat = (List.finRange n).map fun i => (i.val : ℤ) := by
    rw [← List.map_coe_finRange_eq_range, List.map_map]
    rfl
  rw [PhaseSpec.shareOut_iff_perm, hlisted, hnumbers, List.map_perm_map_iff injective_number,
    isPartition_iff_perm]

/-- Phases that list nothing but species stand for phases of a mixture. -/
theorem exists_map_toSpec {specs : List PhaseSpec}
    (h : ∀ k ∈ specs.flatMap PhaseSpec.species, 0 ≤ k ∧ k < n) :
    ∃ phases : List (Phase n), phases.map Phase.toSpec = specs := by
  have hspec : ∀ p ∈ specs, p ∈ Set.range (Phase.toSpec (n := n)) := by
    intro p hp
    have hspecies : p.species ∈ Set.range (List.map fun i : Fin n => (i.val : ℤ)) := by
      rw [Set.range_list_map]
      intro k hk
      obtain ⟨h0, hn⟩ := h k (List.mem_flatMap_of_mem hp hk)
      exact ⟨⟨k.toNat, by omega⟩, Int.toNat_of_nonneg h0⟩
    obtain ⟨species, hspecies⟩ := hspecies
    exact ⟨⟨p.name, p.kind, species⟩, by simp only [Phase.toSpec, hspecies]⟩
  rwa [← Set.mem_range, Set.range_list_map]

/-! ### Making a mixture -/

namespace Mixture

variable {α : Type} {x : Mixture α n} {u : Vec α n} {specs : List PhaseSpec} {P ε : α}

/-- What a mixture takes over: the standard potentials, the phases, the pressure and the floor. -/
structure MadeOf (x : Mixture α n) (u : Vec α n) (specs : List PhaseSpec) (P ε : α) : Prop where
  standard_eq : x.standard = u
  phases_eq : x.phases.map Phase.toSpec = specs
  pressure_eq : x.pressure = P
  floor_eq : x.floor = ε

theorem mapM_ofSpec?_eq_some_iff {phases : List (Phase n)} :
    specs.mapM (Phase.ofSpec? n) = some phases ↔ phases.map Phase.toSpec = specs :=
  Option.mapM_eq_some_iff_map fun _ _ => Phase.ofSpec?_eq_some_iff

/-- **The mixture that is made** takes over what it is made of. -/
theorem ofSpecs_eq_ok_iff : ofSpecs u specs P ε = .ok x ↔ x.MadeOf u specs P ε := by
  constructor
  · intro h
    unfold ofSpecs at h
    split at h
    next => cases h
    next phases hphases =>
      split at h
      next hpartition =>
        cases h
        exact ⟨rfl, mapM_ofSpec?_eq_some_iff.mp hphases, rfl, rfl⟩
      next => cases h
  · rintro ⟨rfl, hphases, rfl, rfl⟩
    rw [ofSpecs, mapM_ofSpec?_eq_some_iff.mpr hphases]
    exact dif_pos x.partition

/-- The phases of a mixture share out its species. -/
theorem MadeOf.shareOut (h : x.MadeOf u specs P ε) : PhaseSpec.ShareOut n specs := by
  rw [← h.phases_eq]
  exact shareOut_map_toSpec.mpr x.partition

/-- **Phases make a mixture exactly when they share out the species.** -/
theorem exists_ofSpecs_iff : (∃ x, ofSpecs u specs P ε = .ok x) ↔ PhaseSpec.ShareOut n specs := by
  constructor
  · rintro ⟨x, hx⟩
    exact (ofSpecs_eq_ok_iff.mp hx).shareOut
  · intro h
    -- the numbers being known gives the phases, their being listed once that the phases are a partition
    obtain ⟨phases, rfl⟩ := exists_map_toSpec h.known
    exact ⟨⟨u, P, ε, phases, shareOut_map_toSpec.mp h⟩, ofSpecs_eq_ok_iff.mpr ⟨rfl, rfl, rfl, rfl⟩⟩

/-- **All other phases are refused** with the numbers that they list. -/
theorem ofSpecs_eq_error (h : ¬PhaseSpec.ShareOut n specs) :
    ofSpecs u specs P ε = .error (.ofSpecs n specs) := by
  cases hmade : ofSpecs u specs P ε with
  | ok x => exact absurd (ofSpecs_eq_ok_iff.mp hmade).shareOut h
  | error e =>
    unfold ofSpecs at hmade
    split at hmade
    next => rw [← hmade]
    next =>
      split at hmade
      next => cases hmade
      next => rw [← hmade]

end Mixture

end GibbsNewton
