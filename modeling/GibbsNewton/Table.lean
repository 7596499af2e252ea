import GibbsNewton.Fields
import GibbsNewton.Value.Text

/-!
# Tables of a run

A table is filled from left to right: its columns are named first, then cells are added one by one
and a row is closed with the cells that are pending.  An active table keeps its rows and prints
them; one that is not active only collects names and cells and drops the cells at the end of a row.
Cells meet their columns by position, and of two columns with one name a row keeps the later cell.

A number is printed in scientific form, every other value as its text, both set to the right in a
cell of fixed width.

## Main definitions

* `Layout` — what a table looks like and whether it is active.
* `Table` — a table, with `Table.addColumn`, `Table.addCell`, `Table.printHeader`,
  `Table.closeRow`.
* `Table.lines` — what a table has printed.
-/

namespace GibbsNewton

/-- The look of a table of a run. -/
structure Layout where
  /-- Whether rows are kept and printed. -/
  active : Bool := false
  /-- The name of the variables' columns, before their number. -/
  xprefix : String := "x"
  /-- The name of the constraint multipliers' columns, before their number. -/
  yprefix : String := "y"
  /-- The name of the bound multipliers' columns, before their number. -/
  zprefix : String := "z"
  /-- Names of the variables, used when there is one for each. -/
  xnames : List String := []
  /-- Names of the constraint multipliers, used when there is one for each. -/
  ynames : List String := []
  /-- Names of the bound multipliers, used when there is one for each. -/
  znames : List String := []
  /-- The width of a cell. -/
  width : Nat := 12
  /-- The digits after the point of a number. -/
  precision : Nat := 4
  deriving DecidableEq, Repr, Inhabited

/-- One printed line of a table. -/
inductive Line (α : Type)
  /-- A line of text. -/
  | text (s : String)
  /-- A row of cells. -/
  | cells (values : List (Value α))

/-- A table while it is filled. -/
structure Table (α : Type) where
  /-- Its look. -/
  layout : Layout
  /-- The names of its columns. -/
  columns : List String := []
  /-- The cells added since the last row was closed. -/
  pending : List (Value α) := []
  /-- The rows closed while active: their cells under the names of the columns. -/
  rows : List (List (String × Value α)) := []
  /-- The lines printed while active. -/
  printed : List (Line α) := []

namespace Layout

/-- A text set to the right in a cell. -/
def pad (l : Layout) (s : String) : String :=
  String.ofList (List.replicate (l.width - s.length) ' ') ++ s

/-- Cells beside each other. -/
def join (cells : List String) : String := " | ".intercalate cells

/-- The text of a cell. -/
def cell (l : Layout) : Value Float → String
  | .real x => l.pad (Decimal.scientific l.precision x)
  | v => l.pad v.plain

/-- The text of a printed line. -/
def line (l : Layout) : Line Float → String
  | .text s => s
  | .cells values => join (values.map l.cell)

end Layout

namespace Table

variable {α : Type}

/-- One more column. -/
def addColumn (t : Table α) (name : String) : Table α := { t with columns := t.columns ++ [name] }

/-- The names of `size` numbered columns: the given ones if there are as many, else the stem with
each number in brackets. -/
def numbered (stem : String) (size : Int) (names : List String) : List String :=
  if (names.length : Int) = size then names
  else (List.range size.toNat).map fun i => stem ++ "[" ++ toString i ++ "]"

/-- As many more columns as `size` says, under the given names or numbered ones. -/
def addColumns (t : Table α) (stem : String) (size : Int) (names : List String) : Table α :=
  { t with columns := t.columns ++ numbered stem size names }

/-- One more cell. -/
def addCell (t : Table α) (v : Value α) : Table α := { t with pending := t.pending ++ [v] }

/-- One more cell for each number. -/
def addNumbers (t : Table α) (xs : List α) : Table α :=
  { t with pending := t.pending ++ xs.map .real }

/-- Prints the names of the columns between two rules. -/
def printHeader (t : Table α) : Table α :=
  if t.layout.active then
    let names := Layout.join (t.columns.map t.layout.pad)
    let rule := String.ofList (List.replicate names.length '-')
    { t with printed := t.printed ++ [.text rule, .text names, .text rule] }
  else t

/-- Closes a row with the pending cells. -/
def closeRow (t : Table α) : Table α :=
  if t.layout.active then
    { t with
      rows := t.rows ++ [Fields.ofPairs (t.columns.zip t.pending)]
      printed := t.printed ++ [.cells t.pending]
      pending := [] }
  else { t with pending := [] }

/-- The lines printed so far. -/
def lines (t : Table Float) : List String := t.printed.map t.layout.line

end Table

end GibbsNewton
