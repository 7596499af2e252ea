import GibbsNewton.Value.Basic
import Mathlib.Algebra.Group.Nat.Defs
import Mathlib.Data.Int.Notation
import Mathlib.Data.List.Basic

/-!
# The parts of a value

A value is made of parts: a list or tuple of its items, a mapping or record of what is in its fields, an
array of the arrays along its first dimension.  Taken apart again and again a value is reached by paths,
each a list of places, and what there is to be seen of it at the end of a path is its outside: a leaf with
its content, a mapping with its keys, or something that is just so many parts in a row.

## Main definitions

* `Value.outline` — the outside of a value.
* `Value.parts` — its parts, in order.
* `Value.at?` — what a path leads to.
* `Value.Inherited` — a property that a value has if its parts have it.

## Main results

* `Value.induction_parts` — **what holds of a value whenever it holds of its parts holds of all values.**
-/

namespace GibbsNewton

/-- What a value with numbers in `α` is on the outside. -/
inductive Outline (α : Type)
  /-- No value. -/
  | none
  /-- A truth value. -/
  | bool (b : Bool)
  /-- A whole number. -/
  | int (n : ℤ)
  /-- A number. -/
  | real (x : α)
  /-- A text. -/
  | text (s : String)
  /-- Parts under keys, in order. -/
  | keyed (keys : List String)
  /-- Parts in a row. -/
  | row (length : ℕ)

namespace Tensor

variable {α β : Type}

/-- What an array is on the outside: an array of no dimension is its entry. -/
def outline (leaf : β → Outline α) : Tensor β → Outline α
  | ⟨[], x :: _⟩ => leaf x
  | ⟨[], []⟩ => .row 0
  | ⟨count :: _, _⟩ => .row count

/-- The arrays along the first dimension. -/
def items : Tensor β → List (Tensor β)
  | ⟨[], _⟩ => []
  | ⟨count :: dims, entries⟩ => (pieces dims.prod count entries).map (⟨dims, ·⟩)

@[simp] theorem length_items_cons (count : ℕ) (dims : List ℕ) (entries : List β) :
    (items ⟨count :: dims, entries⟩).length = count := by
  rw [items, List.length_map, length_pieces]

/-- An array is folded up along its first dimension. -/
theorem nest_cons {γ : Type} (leaf : β → γ) (node : List γ → γ) (count : ℕ) (dims : List ℕ)
    (entries : List β) :
    nest leaf node (count :: dims) entries =
      node ((items ⟨count :: dims, entries⟩).map fun t => nest leaf node t.shape t.entries) := by
  rw [items, List.map_map]
  rfl

end Tensor

namespace Value

variable {α : Type}

/-- What a value is on the outside. -/
def outline : Value α → Outline α
  | none => .none
  | bool b => .bool b
  | int n => .int n
  | real x => .real x
  | text s => .text s
  | list items => .row items.length
  | tuple items => .row items.length
  | mapping fields => .keyed (fields.map Prod.fst)
  | array t => t.outline .real
  | intArray t => t.outline .int
  | record .positional _ fields => .row fields.length
  | record .mapping _ fields => .keyed (fields.map Prod.fst)

/-- The parts of a value, in order. -/
def parts : Value α → List (Value α)
  | list items => items
  | tuple items => items
  | mapping fields => fields.map Prod.snd
  | array t => t.items.map array
  | intArray t => t.items.map intArray
  | record _ _ fields => fields.map Prod.snd
  | _ => []

section

variable {β : Type} {leaf : β → Value α} (t : Tensor β)

/-- The parts of an array that is folded up to lists are its arrays folded up. -/
theorem parts_nest (hleaf : ∀ x, (leaf x).parts = []) :
    (Tensor.nest leaf list t.shape t.entries).parts =
      t.items.map fun u => Tensor.nest leaf list u.shape u.entries := by
  obtain ⟨shape, entries⟩ := t
  cases shape with
  | nil =>
    cases entries with
    | nil => rfl
    | cons x _ => exact hleaf x
  | cons count dims => rw [Tensor.nest_cons, parts]

/-- An array that is folded up to lists is on the outside what the array is. -/
theorem outline_nest :
    (Tensor.nest leaf list t.shape t.entries).outline = t.outline fun x => (leaf x).outline := by
  obtain ⟨shape, entries⟩ := t
  cases shape with
  | nil => cases entries <;> rfl
  | cons count dims =>
    rw [Tensor.nest_cons, outline, List.length_map, Tensor.length_items_cons]
    rfl

end

/-- What a path of places leads to. -/
def at? (v : Value α) : List ℕ → Option (Value α)
  | [] => some v
  | i :: path => v.parts[i]?.bind fun u => u.at? path

/-- `P` holds of a value whenever it holds of its parts. -/
def Inherited (P : Value α → Prop) : Prop := ∀ v : Value α, (∀ u ∈ v.parts, P u) → P v

section

variable {P : Value α → Prop}

/-- An array is taken apart dimension by dimension. -/
theorem induction_array {β : Type} {make : Tensor β → Value α}
    (hparts : ∀ t, (make t).parts = t.items.map make) (h : Inherited P) (t : Tensor β) :
    P (make t) := by
  obtain ⟨shape, entries⟩ := t
  induction shape generalizing entries with
  | nil =>
    refine h _ fun u hu => ?_
    rw [hparts] at hu
    cases hu
  | cons count dims ih =>
    refine h _ fun u hu => ?_
    rw [hparts, Tensor.items, List.map_map] at hu
    obtain ⟨piece, -, rfl⟩ := List.mem_map.mp hu
    exact ih piece

mutual

/-- **What holds of a value whenever it holds of its parts holds of all values.** -/
theorem induction_parts (h : Inherited P) : ∀ v : Value α, P v
  | none => h _ nofun
  | bool _ => h _ nofun
  | int _ => h _ nofun
  | real _ => h _ nofun
  | text _ => h _ nofun
  | list items => h _ (induction_items h items)
  | tuple items => h _ (induction_items h items)
  | mapping fields => h _ (induction_fields h fields)
  | array t => induction_array (fun _ => rfl) h t
  | intArray t => induction_array (fun _ => rfl) h t
  | record _ _ fields => h _ (induction_fields h fields)

/-- The same for the items of a list. -/
theorem induction_items (h : Inherited P) : ∀ items : List (Value α), ∀ u ∈ items, P u
  | [] => nofun
  | item :: items => List.forall_mem_cons.mpr ⟨induction_parts h item, induction_items h items⟩

/-- The same for what is in the fields of a mapping. -/
theorem induction_fields (h : Inherited P) :
    ∀ fields : List (String × Value α), ∀ u ∈ fields.map Prod.snd, P u
  | [] => nofun
  | (_, value) :: fields =>
    List.forall_mem_cons.mpr ⟨induction_parts h value, induction_fields h fields⟩

end

end

end Value

end GibbsNewton
