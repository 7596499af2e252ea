import GibbsNewton.Proofs.Decimal.Rounding
import GibbsNewton.Proofs.Value.Parts

/-!
# What a report keeps

A report is a value of the same form as what it reports on: the same paths lead into both, and at the end of
a path there is the same leaf, the number rounded, or parts under the same keys, or as many parts in a row.
What differs is the kind of value that holds the parts: in a report there are mappings and lists and nothing
else.  A value of this kind is put together again from its outside and its parts, so two of them with the
same outside and the same parts are the same.  That is why a report on a report is the report.

## Main definitions

* `Value.IsPlain` — a value of a kind that occurs in reports, a number being a rounded one.
* `Value.IsReport` — what is known of a report.

## Main results

* `Value.parts_rounded`, `Value.outline_rounded` — **rounding a value rounds its parts and its outside.**
* `Value.at?_rounded` — what a path into a report leads to.
* `Value.rounded_rounded` — rounding a value twice is rounding it once.
* `Value.isReport_report` — **reports on values keep their form and are not changed by another report.**
-/

namespace GibbsNewton

variable {α : Type} [Rounds α] (places : ℤ)

/-! ### The outside and the parts -/

/-- An outside with its number rounded. -/
def Outline.rounded : Outline α → Outline α
  | .real x => .real (Rounds.round places x)
  | o => o

theorem Outline.rounded_rounded {places : ℤ}
    (hround : ∀ x : α, Rounds.round places (Rounds.round places x) = Rounds.round places x)
    (o : Outline α) : (o.rounded places).rounded places = o.rounded places := by
  cases o with
  | real x => exact congrArg Outline.real (hround x)
  | _ => rfl

/-- The outside of an array is rounded in its entry. -/
theorem Tensor.rounded_outline {β : Type} (leaf : β → Outline α) (t : Tensor β) :
    (t.outline leaf).rounded places = t.outline fun x => (leaf x).rounded places := by
  obtain ⟨shape, entries⟩ := t
  cases shape with
  | nil => cases entries <;> rfl
  | cons count dims => rfl

namespace Value

theorem roundedItems_eq (items : List (Value α)) :
    roundedItems places items = items.map (rounded places) := by
  induction items with
  | nil => rfl
  | cons item items ih => rw [roundedItems, ih, List.map_cons]

theorem roundedFields_eq (fields : List (String × Value α)) :
    roundedFields places fields = fields.map fun field => (field.1, rounded places field.2) := by
  induction fields with
  | nil => rfl
  | cons field fields ih => rw [roundedFields, ih, List.map_cons]

theorem roundedValues_eq (fields : List (String × Value α)) :
    roundedValues places fields = (fields.map Prod.snd).map (rounded places) := by
  induction fields with
  | nil => rfl
  | cons field fields ih => rw [roundedValues, ih, List.map_cons, List.map_cons]

theorem map_fst_roundedFields (fields : List (String × Value α)) :
    (roundedFields places fields).map Prod.fst = fields.map Prod.fst := by
  rw [roundedFields_eq, List.map_map]
  rfl

theorem map_snd_roundedFields (fields : List (String × Value α)) :
    (roundedFields places fields).map Prod.snd = (fields.map Prod.snd).map (rounded places) := by
  rw [roundedFields_eq, List.map_map, List.map_map]
  rfl

/-- **The parts of a rounded value** are the rounded parts, in order. -/
theorem parts_rounded (v : Value α) : (rounded places v).parts = v.parts.map (rounded places) := by
  cases v with
  | list items => exact roundedItems_eq places items
  | tuple items => exact roundedItems_eq places items
  | mapping fields => exact map_snd_roundedFields places fields
  | record kind name fields =>
    cases kind with
    | positional => exact roundedValues_eq places fields
    | mapping => exact map_snd_roundedFields places fields
  | array t =>
    rw [rounded, parts_nest t fun _ => rfl, parts, List.map_map]
    rfl
  | intArray t =>
    rw [rounded, parts_nest t fun _ => rfl, parts, List.map_map]
    rfl
  | _ => rfl

/-- **The outside of a rounded value** is that of the value, with its number rounded. -/
theorem outline_rounded (v : Value α) : (rounded places v).outline = v.outline.rounded places := by
  cases v with
  | list items => rw [rounded, outline, roundedItems_eq, List.length_map]; rfl
  | tuple items => rw [rounded, outline, roundedItems_eq, List.length_map]; rfl
  | mapping fields => exact congrArg Outline.keyed (map_fst_roundedFields places fields)
  | record kind name fields =>
    cases kind with
    | positional => rw [rounded, outline, roundedValues_eq, List.length_map, List.length_map]; rfl
    | mapping => exact congrArg Outline.keyed (map_fst_roundedFields places fields)
  | array t => rw [rounded, outline_nest, outline, Tensor.rounded_outline]; rfl
  | intArray t => rw [rounded, outline_nest, outline, Tensor.rounded_outline]; rfl
  | _ => rfl

/-- What a path into a rounded value leads to is what it leads to in the value, rounded. -/
theorem at?_rounded (v : Value α) (path : List ℕ) :
    (rounded places v).at? path = (v.at? path).map (rounded places) := by
  induction path generalizing v with
  | nil => rfl
  | cons i path ih =>
    rw [at?, at?, parts_rounded, List.getElem?_map]
    cases v.parts[i]? with
    | none => rfl
    | some u => exact ih u

/-! ### Values that occur in reports -/

/-- A value of a kind that occurs in reports: a leaf, a number being a rounded one, a list or a mapping. -/
def IsPlain : Value α → Prop
  | real x => Rounds.round places x = x
  | none | bool _ | int _ | text _ | list _ | mapping _ => True
  | tuple _ | array _ | intArray _ | record _ _ _ => False

/-- The value of a kind that occurs in reports with this outside and these parts. -/
def ofOutline : Outline α → List (Value α) → Value α
  | .none, _ => none
  | .bool b, _ => bool b
  | .int n, _ => int n
  | .real x, _ => real x
  | .text s, _ => text s
  | .keyed keys, parts => mapping (keys.zip parts)
  | .row _, parts => list parts

variable {places}

/-- A plain value is put together again from its outside and its parts. -/
theorem IsPlain.ofOutline_eq {v : Value α} (h : v.IsPlain places) : ofOutline v.outline v.parts = v := by
  cases v with
  | mapping fields => exact congrArg mapping (List.zip_of_prod rfl rfl).symm
  | tuple items => exact h.elim
  | array t => exact h.elim
  | intArray t => exact h.elim
  | record kind name fields => exact h.elim
  | _ => rfl

/-- Plain values with the same outside and the same parts are the same. -/
theorem IsPlain.ext {v w : Value α} (hv : v.IsPlain places) (hw : w.IsPlain places)
    (houtline : v.outline = w.outline) (hparts : v.parts = w.parts) : v = w := by
  rw [← hv.ofOutline_eq, ← hw.ofOutline_eq, houtline, hparts]

/-- A rounded array is plain, as its entries are. -/
theorem isPlain_nest {β : Type} {leaf : β → Value α} (hleaf : ∀ x, (leaf x).IsPlain places)
    (t : Tensor β) : (Tensor.nest leaf list t.shape t.entries).IsPlain places := by
  obtain ⟨shape, entries⟩ := t
  cases shape with
  | nil =>
    cases entries with
    | nil => trivial
    | cons x _ => exact hleaf x
  | cons count dims => trivial

section

variable (hround : ∀ x : α, Rounds.round places (Rounds.round places x) = Rounds.round places x)

include hround

/-- **A rounded value is plain**, if rounding a number twice is rounding it once. -/
theorem isPlain_rounded (v : Value α) : (rounded places v).IsPlain places := by
  cases v with
  | real x => exact hround x
  | array t =>
    have hleaf : ∀ x, (real (Rounds.round places x)).IsPlain places := hround
    exact isPlain_nest hleaf t
  | intArray t =>
    have hleaf : ∀ k, (int k : Value α).IsPlain places := fun _ => trivial
    exact isPlain_nest hleaf t
  | record kind name fields => cases kind <;> trivial
  | _ => trivial

/-- **Rounding a value twice is rounding it once.** -/
theorem rounded_rounded (v : Value α) : rounded places (rounded places v) = rounded places v := by
  have hinherited : Inherited fun v : Value α => rounded places (rounded places v) = rounded places v := by
    intro v ih
    -- both are plain, with the same outside and, as is known of the parts of `v`, the same parts
    refine (isPlain_rounded hround _).ext (isPlain_rounded hround v) ?_ ?_
    · rw [outline_rounded, outline_rounded, Outline.rounded_rounded hround]
    · rw [parts_rounded, parts_rounded, List.map_map]
      exact List.map_congr_left ih
  exact induction_parts hinherited v

/-- A report on a report is the report. -/
theorem report_report (v : Value α) : (v.report places).report places = v.report places :=
  rounded_rounded hround (mapping v.fields)

end

/-! ### Reports -/

/-- What is known of a report `w` on a value `v`, which is seen as a mapping. -/
structure IsReport (places : ℤ) (v w : Value α) : Prop where
  /-- Wherever a path leads in the report, there is a leaf, a list or a mapping, and a number is not changed
  by rounding it. -/
  plain : ∀ path u, w.at? path = some u → u.IsPlain places
  /-- The same paths lead into the value and into the report, and what is at their ends is the same on the
  outside, but for the rounding of a number: the same keys in the same order, as many parts in a row. -/
  outline_eq : ∀ path,
    (w.at? path).map outline = (((mapping v.fields).at? path).map outline).map (Outline.rounded places)
  /-- A report on the report is the report. -/
  report_eq : w.report places = w

/-- **Reports keep the form of what they report on, and another report does not change them.** -/
theorem isReport_report (places : ℤ) :
    (∀ x : ℚ, NearestMultiple (10 ^ (-places)) x (Rounds.round places x)) ∧
    ∀ v : Value ℚ, v.IsReport places (v.report places) := by
  refine ⟨Rounds.nearestMultiple_round places, fun v => ?_⟩
  have hat : ∀ path, (v.report places).at? path = ((mapping v.fields).at? path).map (rounded places) :=
    at?_rounded places (mapping v.fields)
  refine ⟨fun path u hu => ?_, fun path => ?_, report_report (Rounds.round_round places) v⟩
  · rw [hat] at hu
    obtain ⟨u, -, rfl⟩ := Option.map_eq_some_iff.mp hu
    exact isPlain_rounded (Rounds.round_round places) u
  · rw [hat, Option.map_map, Option.map_map]
    congr 1
    funext u
    exact outline_rounded places u

/-- A positional record becomes a list and an array the lists of its rows; half a unit goes to the even
neighbour. -/
example :
    (mapping [("lengths", record .positional "StepLengths" [("alphax", real (1 / 8)), ("alphaz", real 1)]),
      ("W", array ⟨[2, 1], [3 / 8, -(1 / 8)]⟩)] : Value ℚ).report 2 =
    mapping [("lengths", list [real (3 / 25), real 1]),
      ("W", list [list [real (19 / 50)], list [real (-(3 / 25))]])] := by
  cbv

end Value

end GibbsNewton
