import GibbsNewton.Proofs.Optimum.Interior
import GibbsNewton.Proofs.Table

/-!
# The table of a run

The names of the columns and the cells of the rows are written by separate steps, and meet by position.
Every row has as many cells as there are columns, so under distinct names each name finds the cell that was
meant for it, and the table tells the run: a row for the start and one for every completed step, each
reached from the row before by the lengths that it shows.  A step to a state whose values are not all
finite has no row.  The run itself does not look at the table.

## Main definitions

* `Optimum.columnNames` — the names of the columns.
* `State.cells`, `State.startRow`, `Update.row`, `Run.rows` — the cells of the rows of a run.
* `Run.tableAfter` — the table when some of the steps were made.
* `State.IsShown`, `Update.IsShown` — a row shows a state, or a step.
* `Run.Told` — a table tells a run.

## Main results

* `Run.record_eq_filled` — the table of a run is filled with its rows.
* `State.isShown_zip`, `Update.isShown_zip` — what the names find in a row.
* `Problem.run_output` — a run does not depend on its table.
* `Newton.told_of_solve` — **the table tells the run and does not change it.**
-/

namespace GibbsNewton.Optimum

variable {α : Type} {n m : ℕ}

/-- The names of the columns of a run. -/
def columnNames (l : Layout) (n m : ℕ) : List String :=
  "iter" :: (Table.numbered l.xprefix n l.xnames ++ Table.numbered l.yprefix m l.ynames ++
    Table.numbered l.zprefix n l.znames ++ measures)

theorem length_columnNames (l : Layout) (n m : ℕ) :
    (columnNames l n m).length = n + m + n + 10 := by
  simp only [columnNames, measures, List.length_cons, List.length_append, Table.length_numbered,
    List.length_nil]

theorem columns_eq (l : Layout) (n m : ℕ) :
    (columns l n m : Table α) = { layout := l, columns := columnNames l n m } := by
  simp [columns, columnNames, measures, Table.addColumn, Table.addColumns]

variable [Scalar α]

/-! ### Rows -/

/-- The cells of a state in the row of an iteration. -/
def State.cells (s : State α n m) (iteration : ℕ) : List (Value α) :=
  .int iteration :: (s.x.toList ++ s.y.toList ++ s.z.toList ++
    [s.values.objective, s.values.constraint.normInf]).map .real

/-- The row of the state that a run started from. -/
def State.startRow (s : State α n m) : List (Value α) :=
  s.cells 0 ++ List.replicate 7 (.text "---")

/-- The cells of a completed step beside those of its state. -/
def Update.cells (u : Update α n m) : List (Value α) :=
  [u.residuals.stationarity, u.residuals.feasibility, u.residuals.centrality, u.residuals.worst,
    u.lengths.common, u.lengths.primal, u.lengths.dual].map .real

/-- The row of a completed step. -/
def Update.row (u : Update α n m) (iteration : ℕ) : List (Value α) :=
  u.state.cells iteration ++ u.cells

/-- The rows of a run. -/
def Run.rows (r : Run α n m) : List (List (Value α)) :=
  r.start.startRow :: r.updates.mapIdx fun k u => u.row (k + 1)

theorem State.length_cells (s : State α n m) (iteration : ℕ) :
    (s.cells iteration).length = n + m + n + 3 := by
  simp [cells]
  omega

theorem State.length_startRow (s : State α n m) (l : Layout) :
    s.startRow.length = (columnNames l n m).length := by
  rw [startRow, List.length_append, length_cells, List.length_replicate, length_columnNames]

theorem Update.length_row (u : Update α n m) (iteration : ℕ) (l : Layout) :
    (u.row iteration).length = (columnNames l n m).length := by
  rw [row, List.length_append, State.length_cells, length_columnNames]
  rfl

theorem Run.length_of_mem_rows {r : Run α n m} {cells : List (Value α)} (h : cells ∈ r.rows)
    (l : Layout) : cells.length = (columnNames l n m).length := by
  rcases List.mem_cons.mp h with rfl | h
  · exact r.start.length_startRow l
  · obtain ⟨k, hk, rfl⟩ := List.mem_mapIdx.mp h
    exact Update.length_row _ _ l

theorem Run.rows_succ (r : Run α n m) {k : ℕ} (hk : k < r.updates.length) :
    r.rows[k + 1]? = some (r.updates[k].row (k + 1)) := by
  rw [rows, List.getElem?_cons_succ, List.getElem?_mapIdx, List.getElem?_eq_getElem hk]
  rfl

theorem Run.length_rows (r : Run α n m) : r.rows.length = r.updates.length + 1 := by
  rw [rows, List.length_cons, List.length_mapIdx]

theorem Run.take_rows (r : Run α n m) (k : ℕ) :
    r.rows.take (k + 1) =
      r.start.startRow :: (r.updates.take k).mapIdx fun k u => u.row (k + 1) := by
  rw [rows, List.take_succ_cons]
  congr 1
  apply List.ext_getElem?
  intro i
  rw [List.getElem?_take, List.getElem?_mapIdx, List.getElem?_mapIdx, List.getElem?_take]
  split <;> rfl

/-! ### The table is filled with the rows -/

theorem State.record_eq (s : State α n m) (iteration : ℕ) (t : Table α) :
    s.record iteration t = t.addCells (s.cells iteration) := by
  simp [record, cells, Table.addNumbers, Table.addCell, Table.addCells]

theorem recordUpdates_append (us vs : List (Update α n m)) (first : ℕ) (t : Table α) :
    recordUpdates (us ++ vs) first t = recordUpdates vs (first + us.length) (recordUpdates us first t) := by
  induction us generalizing first t with
  | nil => rfl
  | cons u us ih =>
    rw [List.cons_append, recordUpdates, ih, recordUpdates, List.length_cons, Nat.add_assoc,
      Nat.add_comm 1]

section Filled

variable {l : Layout} (hactive : l.active = true) (hnames : (columnNames l n m).Nodup)

include hactive hnames

theorem State.recordStart_eq (s : State α n m) :
    s.recordStart (columns l n m).printHeader = .filled l (columnNames l n m) [s.startRow] := by
  have hheader : (columns l n m : Table α).printHeader = .filled l (columnNames l n m) [] := by
    rw [columns_eq, Table.printHeader_of_active _ hactive]
    simp [Table.filled]
  rw [recordStart, hheader, record_eq, Table.foldl_addCell, Table.addCells_addCells]
  exact Table.closeRow_filled hactive hnames [] (s.length_startRow l)

theorem Update.record_eq (u : Update α n m) (iteration : ℕ) (rows : List (List (Value α))) :
    u.record iteration (.filled l (columnNames l n m) rows) =
      .filled l (columnNames l n m) (rows ++ [u.row iteration]) := by
  have hcells : u.record iteration (.filled l (columnNames l n m) rows) =
      (((Table.filled l (columnNames l n m) rows).addCells (u.state.cells iteration)).addCells
        u.cells).closeRow := by
    rw [record, State.record_eq]
    rfl
  rw [hcells, Table.addCells_addCells]
  exact Table.closeRow_filled hactive hnames rows (u.length_row iteration l)

theorem recordUpdates_eq (us : List (Update α n m)) (first : ℕ) (rows : List (List (Value α))) :
    recordUpdates us first (.filled l (columnNames l n m) rows) =
      .filled l (columnNames l n m) (rows ++ us.mapIdx fun k u => u.row (k + first)) := by
  induction us generalizing first rows with
  | nil => simp [recordUpdates]
  | cons u us ih =>
    have hshift : (fun k (u : Update α n m) => u.row (k + 1 + first)) =
        fun k u => u.row (k + (first + 1)) := by
      funext k u
      rw [Nat.add_assoc, Nat.add_comm 1]
    rw [recordUpdates, u.record_eq hactive hnames, ih, List.mapIdx_cons, hshift, Nat.zero_add,
      List.append_assoc, List.singleton_append]

end Filled

/-- The table of a run when the first `k` of its completed steps were made. -/
def Run.tableAfter (r : Run α n m) (l : Layout) (k : ℕ) : Table α :=
  recordUpdates (r.updates.take k) 1 (r.start.recordStart (columns l n m).printHeader)

theorem Run.record_eq_tableAfter (r : Run α n m) {l : Layout} (hactive : l.active = true) {k : ℕ}
    (hk : k ≤ r.updates.length) :
    r.record l = (recordUpdates (r.updates.drop k) (k + 1) (r.tableAfter l k)).printHeader := by
  -- the table is filled from left to right, so that the updates can be cut anywhere
  have happend := recordUpdates_append (r.updates.take k) (r.updates.drop k) 1
    (r.start.recordStart (columns l n m).printHeader)
  rw [List.take_append_drop, List.length_take_of_le hk, Nat.add_comm 1] at happend
  rw [record, if_pos hactive, happend]
  rfl

theorem Run.tableAfter_eq_filled (r : Run α n m) {l : Layout} (hactive : l.active = true)
    (hnames : (columnNames l n m).Nodup) (k : ℕ) :
    r.tableAfter l k = .filled l (columnNames l n m) (r.rows.take (k + 1)) := by
  rw [tableAfter, State.recordStart_eq hactive hnames, recordUpdates_eq hactive hnames, take_rows,
    List.singleton_append]

/-- The table of a run is filled with its rows, and the header stands at the end once more. -/
theorem Run.record_eq_filled (r : Run α n m) {l : Layout} (hactive : l.active = true)
    (hnames : (columnNames l n m).Nodup) :
    r.record l = (Table.filled l (columnNames l n m) r.rows).printHeader := by
  rw [record, if_pos hactive, State.recordStart_eq hactive hnames, recordUpdates_eq hactive hnames]
  rfl

/-! ### What the names find -/

/-- A row shows a state of an iteration: its number, the entries of the point in order, the objective, and
the size of the constraints. -/
structure State.IsShown (s : State α n m) (l : Layout) (iteration : ℕ)
    (row : List (String × Value α)) : Prop where
  iter : row.lookup "iter" = some (.int iteration)
  x : (Table.numbered l.xprefix n l.xnames).map (fun name => row.lookup name) =
    s.x.toList.map fun a => some (.real a)
  y : (Table.numbered l.yprefix m l.ynames).map (fun name => row.lookup name) =
    s.y.toList.map fun a => some (.real a)
  z : (Table.numbered l.zprefix n l.znames).map (fun name => row.lookup name) =
    s.z.toList.map fun a => some (.real a)
  objective : row.lookup "f(x)" = some (.real s.values.objective)
  constraint : row.lookup "h(x)" = some (.real s.values.constraint.normInf)

/-- A row shows the residuals after a step and the lengths of it. -/
structure Update.IsShown (u : Update α n m) (row : List (String × Value α)) : Prop where
  stationarity : row.lookup "errorf" = some (.real u.residuals.stationarity)
  feasibility : row.lookup "errorh" = some (.real u.residuals.feasibility)
  centrality : row.lookup "errorc" = some (.real u.residuals.centrality)
  worst : row.lookup "error" = some (.real u.residuals.worst)
  common : row.lookup "alpha" = some (.real u.lengths.common)
  primal : row.lookup "alphax" = some (.real u.lengths.primal)
  dual : row.lookup "alphaz" = some (.real u.lengths.dual)

/-- Under distinct names the columns of a row find the cells of its state, and the last seven those after
them. -/
theorem State.isShown_zip (s : State α n m) {l : Layout} (hnames : (columnNames l n m).Nodup)
    (iteration : ℕ) (cells : List (Value α)) (hcells : cells.length = 7) :
    s.IsShown l iteration ((columnNames l n m).zip (s.cells iteration ++ cells)) ∧
      (measures.drop 2).map
        (fun name => ((columnNames l n m).zip (s.cells iteration ++ cells)).lookup name) =
        cells.map some := by
  have hlength : (s.cells iteration ++ cells).length = (columnNames l n m).length := by
    rw [List.length_append, length_cells, length_columnNames, hcells]
  have hlookup := List.map_lookup_zip hnames hlength
  generalize (columnNames l n m).zip (s.cells iteration ++ cells) = row at hlookup ⊢
  -- names and cells are cut into blocks of the same lengths
  simp only [columnNames, State.cells, List.map_cons, List.map_append, List.append_assoc,
    List.cons_append] at hlookup
  obtain ⟨hiter, hlookup⟩ := List.cons.inj hlookup
  obtain ⟨hx, hlookup⟩ := List.append_inj hlookup (by simp [Table.length_numbered])
  obtain ⟨hy, hlookup⟩ := List.append_inj hlookup (by simp [Table.length_numbered])
  obtain ⟨hz, hlookup⟩ := List.append_inj hlookup (by simp [Table.length_numbered])
  obtain ⟨hobjective, hlookup⟩ := List.cons.inj hlookup
  obtain ⟨hconstraint, hlookup⟩ := List.cons.inj hlookup
  rw [List.map_map] at hx hy hz
  exact ⟨⟨hiter, hx, hy, hz, hobjective, hconstraint⟩, hlookup⟩

theorem Update.isShown_zip (u : Update α n m) {l : Layout} (hnames : (columnNames l n m).Nodup)
    (iteration : ℕ) :
    u.state.IsShown l iteration ((columnNames l n m).zip (u.row iteration)) ∧
      u.IsShown ((columnNames l n m).zip (u.row iteration)) := by
  obtain ⟨hstate, hlookup⟩ := u.state.isShown_zip hnames iteration u.cells rfl
  refine ⟨hstate, ?_⟩
  simp only [measures, cells, List.drop_succ_cons, List.drop_zero, List.map_cons, List.map_nil,
    List.cons.injEq, and_true] at hlookup
  obtain ⟨hstationarity, hfeasibility, hcentrality, hworst, hcommon, hprimal, hdual⟩ := hlookup
  exact ⟨hstationarity, hfeasibility, hcentrality, hworst, hcommon, hprimal, hdual⟩

/-- The row numbered `k` shows the state numbered `k`. -/
theorem Run.exists_row_of_state (r : Run α n m) {l : Layout} (hnames : (columnNames l n m).Nodup)
    {k : ℕ} {s : State α n m} (hs : r.states[k]? = some s) :
    ∃ cells, r.rows[k]? = some cells ∧ s.IsShown l k ((columnNames l n m).zip cells) := by
  cases k with
  | zero =>
    obtain rfl := Option.some.inj hs
    exact ⟨r.start.startRow, rfl, (r.start.isShown_zip hnames 0 _ rfl).1⟩
  | succ k =>
    rw [states, List.getElem?_cons_succ, List.getElem?_map, Option.map_eq_some_iff] at hs
    obtain ⟨u, hu, rfl⟩ := hs
    obtain ⟨hk, rfl⟩ := List.getElem?_eq_some_iff.mp hu
    exact ⟨_, r.rows_succ hk, (r.updates[k].isShown_zip hnames (k + 1)).1⟩

/-! ### The run does not look at the table -/

namespace Problem

variable (p : Problem α n m) (c : Settings α) (l : Layout)

theorem pursue_output (left : ℕ) (kkt : Kkt.Solver α) (s : State α n m) :
    p.pursue { c with output := l } left kkt s = p.pursue c left kkt s := by
  induction left generalizing kkt s with
  | zero => rfl
  | succ left ih => simp only [pursue, direction?, ih]

/-- A run does not depend on its table. -/
theorem run_output (kkt : Kkt.Solver α) (s : Start α) :
    p.run { c with output := l } kkt s = p.run c kkt s := by
  simp only [run, pursue_output]

end Problem

/-! ### The table tells the run -/

/-- The update `u` is made at the state `s`, by the lengths that it has. -/
theorem Problem.Moves.exists_step {p : Problem α n m} {c : Settings α} {s : State α n m}
    {u : Update α n m} (h : p.Moves c s u) :
    ∃ d, p.newton? c s = some d ∧ u.lengths = s.lengths d c.tau ∧
      u.lengths.common = Scalar.firstMin u.lengths.primal u.lengths.dual ∧
      u.state = (s.step d u.lengths c.uniform).evaluate p ∧
      u.residuals = u.state.residuals c.mu := by
  obtain ⟨d, hd, rfl⟩ := h
  exact ⟨d, hd, rfl, rfl, rfl, rfl⟩

/-- A run made its completed updates from one state to the next. -/
theorem Run.AllUpdates.moves_completed {r : Run α n m} {p : Problem α n m} {c : Settings α}
    {us : List (Update α n m)} (h : r.AllUpdates p c us) {k : ℕ} (hk : k < r.updates.length) :
    ∃ s, r.states[k]? = some s ∧ p.Moves c s r.updates[k] := by
  obtain ⟨rest, rfl⟩ := h.completed
  obtain ⟨s, hs, hmoves, -⟩ := h.moves k (by rw [List.length_append]; omega)
  rw [List.getElem_append_left hk] at hmoves
  have hstates : k < r.states.length := by
    rw [r.length_states]
    omega
  rw [visited, List.getElem?_append_left hstates] at hs
  exact ⟨s, hs, hmoves⟩

/-- The state in which a run gave up has values that are not all finite. -/
theorem Course.isFinite_of_mem_beyond {p : Problem α n m} {c : Settings α} {left : ℕ}
    {s t : State α n m} {us : List (Update α n m)} {e : Ending α n m} (h : Course p c left s us e)
    (ht : t ∈ e.beyond) : t.values.isFinite = false := by
  cases e with
  | notFinite state =>
    obtain rfl := List.mem_singleton.mp ht
    exact h.of_notFinite.2.2
  | converged => cases ht
  | iterationLimit => cases ht
  | noDirection => cases ht

/-- The completed updates are the ones after which the values are finite. -/
theorem Course.countP_isFinite {p : Problem α n m} {c : Settings α} {left : ℕ} {r : Run α n m}
    (h : Course p c left r.start r.updates r.ending) {us : List (Update α n m)}
    (hus : r.AllUpdates p c us) :
    us.countP (fun u => u.state.values.isFinite) = r.updates.length := by
  obtain ⟨rest, rfl⟩ := hus.completed
  have hcompleted : r.updates.countP (fun u => u.state.values.isFinite) = r.updates.length :=
    List.countP_eq_length.mpr fun u hu => (h.exists_moves u hu).2
  -- an update that is left over leads beyond the states of the run
  have hrest : rest.countP (fun u => u.state.values.isFinite) = 0 := by
    rw [List.countP_eq_zero]
    intro u hu
    obtain ⟨i, hi, rfl⟩ := List.mem_iff_getElem.mp hu
    obtain ⟨-, -, -, hnext⟩ := hus.moves (r.updates.length + i) (by rw [List.length_append]; omega)
    have hstates := r.length_states
    rw [Run.visited, List.getElem?_append_right (by omega),
      List.getElem_append_right (Nat.le_add_right _ _)] at hnext
    simp only [Nat.add_sub_cancel_left] at hnext
    rw [h.isFinite_of_mem_beyond (List.mem_of_getElem? hnext)]
    exact Bool.false_ne_true
  rw [List.countP_append, hcompleted, hrest, Nat.add_zero]

/-- A table tells a run of a problem with some settings. -/
structure Run.Told (r : Run α n m) (p : Problem α n m) (c : Settings α) (t : Table α) : Prop where
  columns_eq : t.columns = columnNames c.output n m
  /-- Every row has as many cells as there are columns, and is printed between two headers. -/
  exists_rows : ∃ rows : List (List (Value α)), (∀ cells ∈ rows, cells.length = t.columns.length) ∧
    t.rows = rows.map t.columns.zip ∧
    t.printed = c.output.header t.columns ++ rows.map .cells ++ c.output.header t.columns
  /-- There is a row for the start, and one for every update after which the values are finite. -/
  length_eq : ∃ us, r.AllUpdates p c us ∧
    t.rows.length = 1 + us.countP fun u => u.state.values.isFinite
  /-- The row numbered `k` shows the state numbered `k`. -/
  states : ∀ k (s : State α n m), r.states[k]? = some s → ∃ row, t.rows[k]? = some row ∧ s.IsShown c.output k row
  /-- The first row has nothing but dashes besides. -/
  dashes : ∃ row, t.rows[0]? = some row ∧ ∀ name ∈ measures.drop 2, row.lookup name = some (.text "---")
  /-- Every other row shows besides by which lengths its state is reached from the state of the row before,
  along the Newton direction there, and what its residuals are. -/
  updates : ∀ k (hk : k < r.updates.length), ∃ row s d, t.rows[k + 1]? = some row ∧
    r.updates[k].IsShown row ∧ r.states[k]? = some s ∧ r.states[k + 1]? = some r.updates[k].state ∧
    p.newton? c s = some d ∧ r.updates[k].lengths = s.lengths d c.tau ∧
    r.updates[k].lengths.common = Scalar.firstMin r.updates[k].lengths.primal r.updates[k].lengths.dual ∧
    r.updates[k].state = (s.step d r.updates[k].lengths c.uniform).evaluate p ∧
    r.updates[k].residuals = r.updates[k].state.residuals c.mu
  /-- The last row of an update shows the error that is reported. -/
  last : ∀ row, 1 < t.rows.length → t.rows.getLast? = some row →
    ∃ error, r.report.error = some error ∧ row.lookup "error" = some (.real error)
  /-- After every row, and at the end, nothing is pending. -/
  pending_eq : t.pending = [] ∧ ∀ k ≤ r.updates.length,
    t = (recordUpdates (r.updates.drop k) (k + 1) (r.tableAfter c.output k)).printHeader ∧
      (r.tableAfter c.output k).rows = t.rows.take (k + 1) ∧ (r.tableAfter c.output k).pending = []

/-- **The table of a run tells it**, if it is active and the names of its columns are distinct. -/
theorem Course.told {p : Problem α n m} {c : Settings α} {left : ℕ} {r : Run α n m}
    (h : Course p c left r.start r.updates r.ending) (hactive : c.output.active = true)
    (hnames : (columnNames c.output n m).Nodup) : r.Told p c (r.record c.output) := by
  obtain ⟨us, hus⟩ := h.exists_allUpdates
  have hrecord : r.record c.output = { Table.filled c.output (columnNames c.output n m) r.rows with
      printed := c.output.header (columnNames c.output n m) ++ r.rows.map .cells ++
        c.output.header (columnNames c.output n m) } := by
    rw [r.record_eq_filled hactive hnames]
    exact Table.printHeader_of_active _ hactive
  have hrows : (r.record c.output).rows = r.rows.map (columnNames c.output n m).zip := by
    rw [hrecord]
    rfl
  have hrow : ∀ {k : ℕ} {cells : List (Value α)}, r.rows[k]? = some cells →
      (r.record c.output).rows[k]? = some ((columnNames c.output n m).zip cells) := by
    intro k cells hcells
    rw [hrows, List.getElem?_map, hcells]
    rfl
  refine {
    columns_eq := ?_
    exists_rows := ?_
    length_eq := ⟨us, hus, ?_⟩
    states := ?_
    dashes := ?_
    updates := ?_
    last := ?_
    pending_eq := ⟨?_, ?_⟩ }
  · rw [hrecord]
    rfl
  · rw [hrecord]
    exact ⟨r.rows, fun cells hcells => r.length_of_mem_rows hcells c.output, rfl, rfl⟩
  · rw [hrows, List.length_map, r.length_rows, h.countP_isFinite hus, Nat.add_comm]
  · intro k s hs
    obtain ⟨cells, hcells, hshown⟩ := r.exists_row_of_state hnames hs
    exact ⟨_, hrow hcells, hshown⟩
  · refine ⟨_, hrow (show r.rows[0]? = some r.start.startRow from rfl), fun name hname => ?_⟩
    have hdashes := (r.start.isShown_zip hnames 0 (List.replicate 7 (.text "---")) rfl).2
    have hall := List.map_eq_replicate_iff.mp (hdashes.trans List.map_replicate)
    exact hall name hname
  · intro k hk
    obtain ⟨s, hs, hmoves⟩ := hus.moves_completed hk
    obtain ⟨d, hd, hlengths, hcommon, hstate, hresiduals⟩ := hmoves.exists_step
    refine ⟨_, s, d, hrow (r.rows_succ hk), (r.updates[k].isShown_zip hnames (k + 1)).2, hs, ?_, hd,
      hlengths, hcommon, hstate, hresiduals⟩
    rw [Run.states, List.getElem?_cons_succ, List.getElem?_map, List.getElem?_eq_getElem hk]
    rfl
  · -- the last row is the one of the last update, which the report is about
    intro row hlength hlast
    have hlen : (r.record c.output).rows.length = r.updates.length + 1 := by
      rw [hrows, List.length_map, r.length_rows]
    obtain ⟨k, hk⟩ : ∃ k, r.updates.length = k + 1 := Nat.exists_eq_add_one.mpr (by omega)
    have hlt : k < r.updates.length := by omega
    rw [List.getLast?_eq_getElem?, hlen, hk, Nat.add_sub_cancel, hrow (r.rows_succ hlt)] at hlast
    obtain rfl := Option.some.inj hlast
    refine ⟨r.updates[k].residuals.worst, ?_, (r.updates[k].isShown_zip hnames (k + 1)).2.worst⟩
    rw [Run.report, List.getLast?_eq_getElem?, hk, Nat.add_sub_cancel, List.getElem?_eq_getElem hlt]
    rfl
  · rw [hrecord]
    rfl
  · intro k hk
    refine ⟨r.record_eq_tableAfter hactive hk, ?_, ?_⟩
    · rw [r.tableAfter_eq_filled hactive hnames, hrows, ← List.map_take]
      rfl
    · rw [r.tableAfter_eq_filled hactive hnames]
      rfl

/-- **The table tells the run and does not change it.**  To accepted options with an active table and
distinct names of its columns a solver answers the run from the start, and the table that it is left with
tells this run.  With any other table, or none, it answers the same run. -/
theorem Newton.told_of_solve (w : Newton α) (p : Problem α n m) {o : Options α} {c : Settings α}
    (ho : o.check = .ok c) (hactive : o.output.active = true)
    (hnames : (columnNames o.output n m).Nodup) (s : Start α) :
    ∃ r w', w.solve p o s = .ok (r, w') ∧ r.start = (s.iterate o.mu o.mux n m).evaluate p ∧
      r.Told p c w'.table ∧
      ∀ l : Layout, ∃ w'', w.solve p { o with output := l } s = .ok (r, w'') ∧ w''.kkt = w'.kkt ∧
        (l.active = false → w''.table = { layout := l }) := by
  have hacc := Options.accepted_of_check ho
  have hsolve : ∀ l : Layout, w.solve p { o with output := l } s = .ok ((p.run c w.kkt s).1,
      ⟨(p.run c w.kkt s).2, (p.run c w.kkt s).1.record l⟩) := by
    intro l
    have hcheck : ({ o with output := l } : Options α).check = .ok { c with output := l } :=
      Options.Accepted.check_eq { hacc with output_eq := rfl }
    rw [solve, hcheck, ← p.run_output c l]
    rfl
  refine ⟨_, _, hsolve o.output, ?_, ?_, fun l => ⟨_, hsolve l, rfl, fun hl => ?_⟩⟩
  · rw [← hacc.mu_eq, ← hacc.mux_eq]
    rfl
  · rw [← hacc.output_eq] at hactive hnames ⊢
    exact Course.told (p.course_run c w.kkt s) hactive hnames
  · rw [Run.record, hl]
    rfl

/-- The default options with an active table. -/
noncomputable def Options.traced : Options Exact :=
  { (Options.default : Options Exact) with output := { active := true, xnames := ["a"] } }

/-- The table of a run along a slope tells it. -/
theorem Newton.told_of_solve_slope :
    ∃ c, Options.traced.check = .ok c ∧ Options.traced.output.active = true ∧
      (columnNames Options.traced.output 1 0).Nodup ∧
      ∃ r w', ({} : Newton Exact).solve slope Options.traced {} = .ok (r, w') ∧
        r.start = (Start.iterate {} Options.traced.mu Options.traced.mux 1 0).evaluate slope ∧
        r.Told slope c w'.table ∧
        ∀ l : Layout, ∃ w'', ({} : Newton Exact).solve slope { Options.traced with output := l } {} =
          .ok (r, w'') ∧ w''.kkt = w'.kkt ∧ (l.active = false → w''.table = { layout := l }) := by
  obtain ⟨c, hc⟩ := Options.exists_check_default
  have hacc := Options.accepted_of_check hc
  have ho : Options.traced.check = .ok { c with output := Options.traced.output } :=
    Options.Accepted.check_eq { hacc with output_eq := rfl }
  have hnames : (columnNames Options.traced.output 1 0).Nodup := by
    have hnames : columnNames Options.traced.output 1 0 = ["iter", "a", "z[0]"] ++ measures := rfl
    rw [hnames]
    decide
  exact ⟨_, ho, rfl, hnames, told_of_solve {} slope ho rfl hnames {}⟩

end GibbsNewton.Optimum
