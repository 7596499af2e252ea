import GibbsNewton.Species.Record
import GibbsNewton.Proofs.Traversal
import Mathlib.Algebra.Group.Nat.Defs

/-!
# Coefficients as arrays

The coefficients of a record are a number, or a list of arrays of one and the same shape.  What is read
from them is said here constructor by constructor, without the steps of the reader: an array holds the
numbers that were written, in order, and has as many entries as its shape says.

## Main definitions

* `Tensor.Full` — there are as many entries as the shape says.
* `Tensor.Stacked` — an array is made of others along a new first dimension.
* `Tensor.IsArray` — a value is written as numbers that are the entries of an array.

## Main results

* `Tensor.IsArray.full` — an array has as many entries as its shape says.
* `Species.coefficientsOf_eq_ok_iff` — **what is read as coefficients.**
-/

namespace GibbsNewton

namespace Tensor

variable {β : Type}

/-! ### Arrays -/

/-- There are as many entries as the shape says. -/
def Full (t : Tensor β) : Prop := t.entries.length = t.shape.prod

/-- An array is made of others, which have one shape, along a new first dimension. -/
inductive Stacked : List (Tensor β) → Tensor β → Prop
  /-- No arrays make one without entries. -/
  | nil : Stacked [] ⟨[0], []⟩
  /-- Some arrays make one with the entries of each in turn. -/
  | cons {first : Tensor β} {rest : List (Tensor β)} (shapes : ∀ t ∈ rest, t.shape = first.shape) :
      Stacked (first :: rest)
        ⟨(rest.length + 1) :: first.shape, (first :: rest).flatMap (·.entries)⟩

theorem stack?_eq_some_iff {ts : List (Tensor β)} {t : Tensor β} : stack? ts = some t ↔ Stacked ts t := by
  cases ts with
  | nil =>
    constructor
    · rintro ⟨⟩
      exact .nil
    · rintro ⟨⟩
      rfl
  | cons first rest =>
    rw [stack?, Option.ite_none_right_eq_some, List.all_eq_true]
    simp only [beq_iff_eq]
    constructor
    · rintro ⟨hshapes, h⟩
      obtain rfl := Option.some.inj h
      exact .cons hshapes
    · intro h
      cases h with
      | cons shapes => exact ⟨shapes, rfl⟩

theorem Stacked.full {ts : List (Tensor β)} {t : Tensor β} (h : Stacked ts t) (hts : ∀ u ∈ ts, u.Full) :
    t.Full := by
  cases h with
  | nil => rfl
  | @cons first rest shapes =>
    have hlength : ∀ u ∈ first :: rest, u.entries.length = first.shape.prod := by
      intro u hu
      have hshape : u.shape = first.shape := by
        rcases List.mem_cons.mp hu with rfl | hrest
        · rfl
        · exact shapes u hrest
      rw [hts u hu, hshape]
    change ((first :: rest).flatMap entries).length = (first :: rest).length * first.shape.prod
    rw [List.length_flatMap, List.map_congr_left hlength, List.map_const', List.sum_replicate_nat]

/-- A value is a number or a list of arrays, and its numbers are the entries of an array; truth values
count as one and zero. -/
inductive IsArray : Json → Tensor Float → Prop
  /-- A whole number is the one entry of an array without dimensions. -/
  | int (n : Int) : IsArray (.int n) ⟨[], [Decimal.ofInt n]⟩
  /-- So is any other number. -/
  | real (x : Float) : IsArray (.real x) ⟨[], [x]⟩
  /-- So is a truth value. -/
  | bool (b : Bool) : IsArray (.bool b) ⟨[], [if b then 1 else 0]⟩
  /-- The arrays of a list are stacked. -/
  | list {items : List Json} {ts : List (Tensor Float)} {t : Tensor Float}
      (each : List.Forall₂ IsArray items ts) (stacked : Stacked ts t) : IsArray (.list items) t

mutual

/-- **An array has as many entries as its shape says.** -/
theorem IsArray.full {j : Json} {t : Tensor Float} (h : IsArray j t) : t.Full := by
  cases j with
  | list items =>
    cases h with
    | list each stacked => exact stacked.full (full_of_forall₂_isArray each)
  | null | bool | int | real | text | object =>
    cases h
    all_goals rfl

theorem full_of_forall₂_isArray {items : List Json} {ts : List (Tensor Float)}
    (h : List.Forall₂ IsArray items ts) : ∀ t ∈ ts, t.Full := by
  cases items with
  | nil =>
    cases h
    nofun
  | cons item items =>
    cases h with
    | cons hitem hitems =>
      rw [List.forall_mem_cons]
      exact ⟨hitem.full, full_of_forall₂_isArray hitems⟩

end

/-! ### Leaves -/

mutual

/-- A test that no number passes, no leaf of an array passes. -/
theorem IsArray.anyLeaf_eq_false {p : Json → Bool} (hint : ∀ n, p (.int n) = false)
    (hreal : ∀ x, p (.real x) = false) (hbool : ∀ b, p (.bool b) = false) {j : Json} {t : Tensor Float}
    (h : IsArray j t) : j.anyLeaf p = false := by
  cases j with
  | list items =>
    cases h with
    | list each _ => exact anyLeafItems_eq_false_of_forall₂ hint hreal hbool each
  | int n => exact hint n
  | real x => exact hreal x
  | bool b => exact hbool b
  | null | text | object => cases h

theorem anyLeafItems_eq_false_of_forall₂ {p : Json → Bool} (hint : ∀ n, p (.int n) = false)
    (hreal : ∀ x, p (.real x) = false) (hbool : ∀ b, p (.bool b) = false) {items : List Json}
    {ts : List (Tensor Float)} (h : List.Forall₂ IsArray items ts) :
    Json.anyLeafItems p items = false := by
  cases items with
  | nil => rfl
  | cons item items =>
    cases h with
    | cons hitem hitems =>
      rw [Json.anyLeafItems, Bool.or_eq_false_iff]
      exact ⟨hitem.anyLeaf_eq_false hint hreal hbool,
        anyLeafItems_eq_false_of_forall₂ hint hreal hbool hitems⟩

end

/-- An array of numbers as one of leaves. -/
def asLeaves (t : Tensor Float) : Tensor Leaf := ⟨t.shape, t.entries.map .number⟩

theorem asLeaves_injective : Function.Injective asLeaves := by
  rintro ⟨shape, entries⟩ ⟨shape', entries'⟩ h
  have hnumber : Function.Injective Leaf.number := fun x y hxy => Leaf.number.inj hxy
  have hshape : shape = shape' := congrArg Tensor.shape h
  have hentries : entries = entries' := List.map_injective_iff.mpr hnumber (congrArg Tensor.entries h)
  rw [hshape, hentries]

theorem stacked_map_asLeaves_iff {ts : List (Tensor Float)} {t : Tensor Float} :
    Stacked (ts.map asLeaves) t.asLeaves ↔ Stacked ts t := by
  cases ts with
  | nil =>
    constructor
    · intro h
      rw [← stack?_eq_some_iff] at h
      have ht : asLeaves ⟨[0], []⟩ = t.asLeaves := Option.some.inj h
      rw [← asLeaves_injective ht]
      exact .nil
    · rintro ⟨⟩
      exact .nil
  | cons first rest =>
    have hall : (rest.map asLeaves).all (·.shape == first.asLeaves.shape) =
        rest.all (·.shape == first.shape) := List.all_map
    have hstack : stack? ((first :: rest).map asLeaves) = (stack? (first :: rest)).map asLeaves := by
      rw [List.map_cons, stack?, stack?, hall]
      split
      · simp [asLeaves, List.flatMap_map, List.map_flatMap]
      · rfl
    rw [← stack?_eq_some_iff, ← stack?_eq_some_iff, hstack]
    constructor
    · intro h
      obtain ⟨u, hu, hut⟩ := Option.map_eq_some_iff.mp h
      rw [hu, asLeaves_injective hut]
    · intro h
      rw [h, Option.map_some]

/-- Arrays of leaves whose entries are all numbers are arrays of numbers. -/
theorem exists_map_asLeaves {ls : List (Tensor Leaf)} {xs : List Float}
    (h : ls.flatMap (·.entries) = xs.map .number) : ∃ ts, ls = List.map asLeaves ts := by
  induction ls generalizing xs with
  | nil => exact ⟨[], rfl⟩
  | cons l ls ih =>
    rw [List.flatMap_cons] at h
    obtain ⟨ys, zs, rfl, hys, hzs⟩ := List.map_eq_append_iff.mp h.symm
    obtain ⟨ts, rfl⟩ := ih hzs.symm
    refine ⟨⟨l.shape, ys⟩ :: ts, ?_⟩
    rw [List.map_cons, asLeaves, hys]

mutual

theorem IsArray.leaves?_eq {j : Json} {t : Tensor Float} (h : IsArray j t) :
    leaves? j = some t.asLeaves := by
  cases j with
  | list items =>
    cases h with
    | list each stacked =>
      rw [leaves?, leavesItems?_of_forall₂ each, Option.bind_some, stack?_eq_some_iff,
        stacked_map_asLeaves_iff]
      exact stacked
  | null | bool | int | real | text | object =>
    cases h
    all_goals rfl

theorem leavesItems?_of_forall₂ {items : List Json} {ts : List (Tensor Float)}
    (h : List.Forall₂ IsArray items ts) : leavesItems? items = some (ts.map asLeaves) := by
  cases items with
  | nil =>
    cases h
    rfl
  | cons item items =>
    cases h with
    | cons hitem hitems =>
      rw [leavesItems?, hitem.leaves?_eq, leavesItems?_of_forall₂ hitems]
      rfl

end

/-- A value is at most one array. -/
theorem IsArray.unique {j : Json} {t u : Tensor Float} (ht : IsArray j t) (hu : IsArray j u) : t = u :=
  asLeaves_injective (Option.some.inj (ht.leaves?_eq.symm.trans hu.leaves?_eq))

mutual

/-- Leaves that are numbers, and neither nulls nor texts, are the entries of an array. -/
theorem isArray_of_leaves? {j : Json} {t : Tensor Float} (hnull : j.anyLeaf Species.isNull = false)
    (htext : j.anyLeaf Species.isText = false) (h : leaves? j = some t.asLeaves) : IsArray j t := by
  cases j with
  | list items =>
    rw [leaves?] at h
    obtain ⟨ls, hls, hstack⟩ := Option.bind_eq_some_iff.mp h
    rw [stack?_eq_some_iff] at hstack
    have hentries : ls.flatMap (·.entries) = t.entries.map .number := by
      generalize hu : t.asLeaves = u at hstack
      cases hstack with
      | nil => exact (congrArg Tensor.entries hu).symm
      | cons => exact (congrArg Tensor.entries hu).symm
    obtain ⟨ts, rfl⟩ := exists_map_asLeaves hentries
    exact .list (forall₂_isArray_of_leavesItems? hnull htext hls) (stacked_map_asLeaves_iff.mp hstack)
  | int n =>
    have ht : asLeaves ⟨[], [Decimal.ofInt n]⟩ = t.asLeaves := Option.some.inj h
    rw [← asLeaves_injective ht]
    exact .int n
  | real x =>
    have ht : asLeaves ⟨[], [x]⟩ = t.asLeaves := Option.some.inj h
    rw [← asLeaves_injective ht]
    exact .real x
  | bool b =>
    have ht : asLeaves ⟨[], [if b then 1 else 0]⟩ = t.asLeaves := Option.some.inj h
    rw [← asLeaves_injective ht]
    exact .bool b
  | null => cases hnull
  | text s => cases htext
  | object fields =>
    -- an object is a single leaf that is no number
    obtain ⟨shape, entries⟩ := t
    have hentries : [Leaf.mapping] = entries.map .number :=
      congrArg Tensor.entries (Option.some.inj h)
    cases entries with
    | nil => cases hentries
    | cons x entries => cases (List.cons.inj hentries).1

theorem forall₂_isArray_of_leavesItems? {items : List Json} {ts : List (Tensor Float)}
    (hnull : Json.anyLeafItems Species.isNull items = false)
    (htext : Json.anyLeafItems Species.isText items = false)
    (h : leavesItems? items = some (ts.map asLeaves)) : List.Forall₂ IsArray items ts := by
  cases items with
  | nil =>
    have hts : [] = ts.map asLeaves := Option.some.inj h
    rw [List.map_eq_nil_iff.mp hts.symm]
    exact .nil
  | cons item items =>
    rw [Json.anyLeafItems, Bool.or_eq_false_iff] at hnull htext
    rw [leavesItems?] at h
    obtain ⟨l, hl, h⟩ := Option.bind_eq_some_iff.mp h
    obtain ⟨ls, hls, h⟩ := Option.bind_eq_some_iff.mp h
    obtain ⟨t, ts, rfl, rfl, rfl⟩ := List.map_eq_cons_iff.mp (Option.some.inj h).symm
    exact .cons (isArray_of_leaves? hnull.1 htext.1 hl) (forall₂_isArray_of_leavesItems? hnull.2 htext.2 hls)

end

/-- What is read from a nested list. -/
theorem ofJson_eq_ok_iff {j : Json} {t : Tensor Float} :
    ofJson j = .ok t ↔ j.anyLeaf isGap = false ∧ leaves? j = some t.asLeaves := by
  unfold ofJson
  cases hgap : j.anyLeaf isGap with
  | true =>
    constructor
    · nofun
    · rintro ⟨⟨⟩, -⟩
  | false =>
    cases hleaves : leaves? j with
    | none =>
      constructor
      · nofun
      · rintro ⟨-, ⟨⟩⟩
    | some l =>
      constructor
      · intro h
        obtain ⟨xs, hxs, h⟩ := Except.exists_of_bind_eq_ok h
        obtain rfl := Except.ok.inj h
        have hentries : List.Forall₂ (fun leaf x => leaf = Leaf.number x) l.entries xs := by
          refine (Except.mapM_eq_ok_iff.mp hxs).imp fun leaf x hleaf => ?_
          cases leaf with
          | number y => rw [Except.ok.inj hleaf]
          | mapping => cases hleaf
        rw [← List.forall₂_map_right_iff, List.forall₂_eq_eq_eq] at hentries
        rw [asLeaves, ← hentries]
        exact ⟨rfl, rfl⟩
      · rintro ⟨-, h⟩
        obtain rfl := Option.some.inj h
        refine Except.bind_eq_ok_of_eq_ok (Except.mapM_eq_ok_iff.mpr ?_) rfl
        rw [asLeaves, List.forall₂_map_left_iff, List.forall₂_same]
        exact fun _ _ => rfl

end Tensor

/-- **What is read as coefficients.** -/
theorem Species.coefficientsOf_eq_ok_iff {j : Json} {t : Tensor Float} :
    coefficientsOf j = .ok t ↔ Tensor.IsArray j t := by
  constructor
  · intro h
    unfold coefficientsOf at h
    split at h
    next => cases h
    next hnull =>
      split at h
      next => cases h
      next htext =>
        split at h
        next t' ht' =>
          obtain rfl := Except.ok.inj h
          exact Tensor.isArray_of_leaves? (Bool.eq_false_iff.mpr hnull) (Bool.eq_false_iff.mpr htext)
            (Tensor.ofJson_eq_ok_iff.mp ht').2
        next => cases h
        next => cases h
  · intro h
    have hnumbers : ∀ {p : Json → Bool}, (∀ n, p (.int n) = false) → (∀ x, p (.real x) = false) →
        (∀ b, p (.bool b) = false) → ¬j.anyLeaf p = true := by
      intro p hint hreal hbool
      rw [h.anyLeaf_eq_false hint hreal hbool]
      exact Bool.false_ne_true
    have hread : Tensor.ofJson j = .ok t := by
      refine Tensor.ofJson_eq_ok_iff.mpr ⟨?_, h.leaves?_eq⟩
      exact h.anyLeaf_eq_false (fun _ => rfl) (fun _ => rfl) (fun _ => rfl)
    rw [coefficientsOf, if_neg (hnumbers (fun _ => rfl) (fun _ => rfl) (fun _ => rfl)),
      if_neg (hnumbers (fun _ => rfl) (fun _ => rfl) (fun _ => rfl)), hread]

end GibbsNewton
