import GibbsNewton.Table
import Mathlib.Data.List.Induction
import Mathlib.Data.List.Nodup

/-!
# Rows of a table

Names and cells come to a table one by one and meet by position only.  Under distinct names a row that was
closed with as many cells as there are columns is the cells under the names, and each name finds its own
cell again.

## Main definitions

* `Layout.header` — the lines of a header.
* `Table.filled` — an active table with these names, in which these rows were closed.

## Main results

* `Fields.ofPairs_of_nodup` — pairs under distinct names stay as they are.
* `List.map_lookup_zip` — each name finds its own cell.
* `Table.closeRow_filled` — **one more row.**
-/

namespace GibbsNewton

/-! ### Fields under distinct names -/

namespace Fields

variable {β : Type}

theorem put_of_forall_ne {fields : List (String × β)} {name : String}
    (h : ∀ field ∈ fields, field.1 ≠ name) (value : β) :
    put fields name value = fields ++ [(name, value)] := by
  refine if_neg ?_
  rw [Bool.not_eq_true, List.any_eq_false]
  intro field hfield hname
  exact h field hfield (eq_of_beq hname)

/-- Pairs under distinct names stay as they are. -/
theorem ofPairs_of_nodup {pairs : List (String × β)} (h : (pairs.map Prod.fst).Nodup) :
    ofPairs pairs = pairs := by
  induction pairs using List.reverseRecOn with
  | nil => rfl
  | append_singleton pairs pair ih =>
    rw [List.map_append, List.nodup_append] at h
    obtain ⟨hpairs, -, hdisjoint⟩ := h
    have hne : ∀ field ∈ pairs, field.1 ≠ pair.1 := fun field hfield =>
      hdisjoint field.1 (List.mem_map_of_mem hfield) pair.1 (by simp)
    have hlast : ofPairs (pairs ++ [pair]) = put (ofPairs pairs) pair.1 pair.2 := by
      rw [ofPairs, List.foldl_append]
      rfl
    rw [hlast, ih hpairs, put_of_forall_ne hne]

end Fields

/-- Each name finds its own cell. -/
theorem List.map_lookup_zip {β : Type} {names : List String} (hnames : names.Nodup) :
    ∀ {cells : List β}, cells.length = names.length →
      names.map (fun name => (names.zip cells).lookup name) = cells.map some := by
  induction names with
  | nil =>
    intro cells hlength
    rw [List.length_eq_zero_iff.mp hlength]
    rfl
  | cons name names ih =>
    intro cells hlength
    obtain ⟨hname, hnames⟩ := List.nodup_cons.mp hnames
    cases cells with
    | nil => cases hlength
    | cons cell cells =>
      have hrest : names.map (fun other => ((name, cell) :: names.zip cells).lookup other) =
          names.map (fun other => (names.zip cells).lookup other) := by
        refine List.map_congr_left fun other hother => ?_
        have hne : other ≠ name := fun h => hname (h ▸ hother)
        rw [List.lookup_cons, beq_eq_false_iff_ne.mpr hne]
      rw [List.zip_cons_cons, List.map_cons, List.map_cons, List.lookup_cons_self, hrest,
        ih hnames (Nat.succ.inj hlength)]

/-! ### Tables -/

/-- The lines of a header: the names of the columns between two rules. -/
def Layout.header {α : Type} (l : Layout) (names : List String) : List (Line α) :=
  let text := Layout.join (names.map l.pad)
  let rule := String.ofList (List.replicate text.length '-')
  [.text rule, .text text, .text rule]

namespace Table

variable {α : Type} {l : Layout} {names : List String}

/-- As many columns come as were asked for. -/
theorem length_numbered (stem : String) (size : ℕ) (names : List String) :
    (numbered stem size names).length = size := by
  unfold numbered
  split
  next h => exact Int.ofNat_inj.mp h
  next => simp

theorem printHeader_of_active (t : Table α) (h : t.layout.active = true) :
    t.printHeader = { t with printed := t.printed ++ t.layout.header t.columns } := by
  unfold printHeader
  rw [if_pos h]
  rfl

/-- A table with these names, in which rows of these cells were closed after the header was printed, and
to which nothing was added since. -/
def filled (l : Layout) (names : List String) (rows : List (List (Value α))) : Table α where
  layout := l
  columns := names
  rows := rows.map names.zip
  printed := l.header names ++ rows.map .cells

/-- More cells. -/
def addCells (t : Table α) (cells : List (Value α)) : Table α :=
  { t with pending := t.pending ++ cells }

theorem addCells_addCells (t : Table α) (cells cells' : List (Value α)) :
    (t.addCells cells).addCells cells' = t.addCells (cells ++ cells') := by
  simp only [addCells, List.append_assoc]

theorem foldl_addCell (t : Table α) (cells : List (Value α)) :
    cells.foldl addCell t = t.addCells cells := by
  induction cells generalizing t with
  | nil => simp only [List.foldl_nil, addCells, List.append_nil]
  | cons cell cells ih =>
    rw [List.foldl_cons, ih]
    exact t.addCells_addCells [cell] cells

/-- **One more row** in an active table. -/
theorem closeRow_filled (hactive : l.active = true) (hnames : names.Nodup)
    (rows : List (List (Value α))) {cells : List (Value α)} (hcells : cells.length = names.length) :
    ((filled l names rows).addCells cells).closeRow = filled l names (rows ++ [cells]) := by
  have hrow : Fields.ofPairs (names.zip cells) = names.zip cells := by
    refine Fields.ofPairs_of_nodup ?_
    rw [List.map_fst_zip (Nat.le_of_eq hcells.symm)]
    exact hnames
  simp [closeRow, addCells, filled, hactive, hrow]

end Table

end GibbsNewton
