import Mathlib.Data.List.Forall2

/-!
# Steps and traversals that may fail

A traversal that succeeds relates what it is given to what it answers, item by item.  Everything that is
known about the items is then said in terms of that relation.

## Main results

* `Except.exists_of_bind_eq_ok`, `Except.bind_eq_ok_of_eq_ok`, `Except.eq_or_exists_of_bind_eq_error` — two
  steps in sequence.
* `Except.mapM_eq_ok_iff`, `Option.mapM_eq_some_iff` — **a traversal answers item by item.**
* `exists_mem_of_forall₂`, `exists_forall₂`, `exists_forall₂_map_fst_iff` — lists that are related item by
  item.
-/

namespace GibbsNewton

/-! ### Lists related item by item -/

section

variable {α β : Type} {R : α → β → Prop} {xs : List α} {ys : List β}

/-- What is in the first of two lists that are related item by item is related to something in the
second one. -/
theorem exists_mem_of_forall₂ (h : List.Forall₂ R xs ys) {x : α} (hx : x ∈ xs) : ∃ y ∈ ys, R x y := by
  induction h with
  | nil => cases hx
  | cons hhead _ ih =>
    rcases List.mem_cons.mp hx with rfl | hx
    · exact ⟨_, List.mem_cons_self, hhead⟩
    · obtain ⟨y, hy, hxy⟩ := ih hx
      exact ⟨y, List.mem_cons_of_mem _ hy, hxy⟩

/-- If every item is related to something, the list is related to some list. -/
theorem exists_forall₂ (h : ∀ x ∈ xs, ∃ y, R x y) : ∃ ys, List.Forall₂ R xs ys := by
  induction xs with
  | nil => exact ⟨[], .nil⟩
  | cons x xs ih =>
    obtain ⟨⟨y, hy⟩, hxs⟩ := List.forall_mem_cons.mp h
    obtain ⟨ys, hys⟩ := ih hxs
    exact ⟨y :: ys, .cons hy hys⟩

/-- What goes with the items of a list can be chosen for all of them at once. -/
theorem exists_forall₂_map_fst_iff {γ : Type} {R : α → β × γ → Prop} :
    (∃ ps, List.Forall₂ R xs ps ∧ ys = ps.map Prod.fst) ↔
      List.Forall₂ (fun x y => ∃ z, R x (y, z)) xs ys := by
  constructor
  · rintro ⟨ps, h, rfl⟩
    rw [List.forall₂_map_right_iff]
    exact h.imp fun _ p hp => ⟨p.2, hp⟩
  · intro h
    induction h with
    | nil => exact ⟨[], .nil, rfl⟩
    | @cons x y _ _ hhead _ ih =>
      obtain ⟨z, hz⟩ := hhead
      obtain ⟨ps, hps, rfl⟩ := ih
      exact ⟨(y, z) :: ps, .cons hz hps, rfl⟩

end

/-! ### Steps that may fail for a reason -/

namespace Except

variable {ε α β : Type}

/-- What a sequence of two steps that answers goes through. -/
theorem exists_of_bind_eq_ok {x : Except ε α} {f : α → Except ε β} {b : β} (h : x >>= f = .ok b) :
    ∃ a, x = .ok a ∧ f a = .ok b := by
  cases x with
  | error e => cases h
  | ok a => exact ⟨a, rfl, h⟩

/-- A sequence of two steps answers if both do. -/
theorem bind_eq_ok_of_eq_ok {x : Except ε α} {f : α → Except ε β} {a : α} {b : β} (hx : x = .ok a)
    (hf : f a = .ok b) : x >>= f = .ok b := by
  rw [hx]
  exact hf

/-- Where a sequence of two steps that fails does so. -/
theorem eq_or_exists_of_bind_eq_error {x : Except ε α} {f : α → Except ε β} {e : ε}
    (h : x >>= f = .error e) : x = .error e ∨ ∃ a, x = .ok a ∧ f a = .error e := by
  cases x with
  | error e' => exact .inl (congrArg Except.error (Except.error.inj h))
  | ok a => exact .inr ⟨a, rfl, h⟩

/-- **A traversal answers item by item.** -/
theorem mapM_eq_ok_iff {f : α → Except ε β} {xs : List α} {ys : List β} :
    xs.mapM f = .ok ys ↔ List.Forall₂ (fun x y => f x = .ok y) xs ys := by
  induction xs generalizing ys with
  | nil =>
    rw [List.forall₂_nil_left_iff]
    exact ⟨fun h => (Except.ok.inj h).symm, fun h => congrArg Except.ok h.symm⟩
  | cons x xs ih =>
    rw [List.mapM_cons, List.forall₂_cons_left_iff]
    constructor
    · intro h
      obtain ⟨z, hz, h⟩ := exists_of_bind_eq_ok h
      obtain ⟨zs, hzs, h⟩ := exists_of_bind_eq_ok h
      exact ⟨z, zs, hz, ih.mp hzs, (Except.ok.inj h).symm⟩
    · rintro ⟨z, zs, hz, hzs, rfl⟩
      rw [hz, ih.mpr hzs]
      rfl

end Except

/-! ### Steps that may fail -/

namespace Option

variable {α β : Type}

/-- **A traversal answers item by item.** -/
theorem mapM_eq_some_iff {f : α → Option β} {xs : List α} {ys : List β} :
    xs.mapM f = some ys ↔ List.Forall₂ (fun x y => f x = some y) xs ys := by
  induction xs generalizing ys with
  | nil =>
    rw [List.forall₂_nil_left_iff]
    exact ⟨fun h => (Option.some.inj h).symm, fun h => congrArg some h.symm⟩
  | cons x xs ih =>
    rw [List.mapM_cons, List.forall₂_cons_left_iff]
    constructor
    · intro h
      obtain ⟨y, hy, h⟩ := Option.bind_eq_some_iff.mp h
      obtain ⟨zs, hzs, h⟩ := Option.bind_eq_some_iff.mp h
      exact ⟨y, zs, hy, ih.mp hzs, (Option.some.inj h).symm⟩
    · rintro ⟨y, zs, hy, hzs, rfl⟩
      rw [hy, ih.mpr hzs]
      rfl

/-- Items that are all answered are answered one by one. -/
theorem getElem?_of_mapM_eq_some {f : α → Option β} {xs : List α} {ys : List β}
    (h : xs.mapM f = some ys) : ys.length = xs.length ∧ ∀ k : ℕ, ys[k]? = xs[k]?.bind f := by
  replace h := mapM_eq_some_iff.mp h
  induction h with
  | nil => exact ⟨rfl, fun k => rfl⟩
  | cons hhead _ ih =>
    obtain ⟨hlength, hget⟩ := ih
    refine ⟨by rw [List.length_cons, hlength, List.length_cons], fun k => ?_⟩
    cases k with
    | zero => exact hhead.symm
    | succ k => exact hget k

/-- A traversal with a function that undoes another one reads the list that this one writes. -/
theorem mapM_eq_some_iff_map {f : α → Option β} {g : β → α} (h : ∀ x y, f x = some y ↔ g y = x)
    {xs : List α} {ys : List β} : xs.mapM f = some ys ↔ ys.map g = xs := by
  rw [mapM_eq_some_iff]
  calc List.Forall₂ (fun x y => f x = some y) xs ys
      ↔ List.Forall₂ (fun x y => x = g y) xs ys :=
        ⟨List.Forall₂.imp fun x y hy => ((h x y).mp hy).symm,
          List.Forall₂.imp fun x y hy => (h x y).mpr hy.symm⟩
    _ ↔ List.Forall₂ Eq xs (ys.map g) := List.forall₂_map_right_iff.symm
    _ ↔ ys.map g = xs := by rw [List.forall₂_eq_eq_eq, eq_comm]

end Option

end GibbsNewton
