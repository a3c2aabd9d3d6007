import ChartQuery.Pivot.Table
import ChartQuery.Proofs.Pivot.Leaves
import ChartQuery.Proofs.Pivot.Paths
import Mathlib.Data.List.Forall2

namespace ChartQuery

theorem run_mapM_fst {α β σ : Type} {f : α → StateM σ β} {g : α → β}
    (h : ∀ x s, ((f x).run s).1 = g x) (xs : List α) (s : σ) :
    ((xs.mapM f).run s).1 = xs.map g := by
  induction xs generalizing s with
  | nil => rfl
  | cons x xs ih =>
    rw [List.mapM_cons, List.map_cons, ← h x s, ← ih ((f x).run s).2]
    rfl

namespace Results

/-- The first row of the grouping of two leaves that has their values. -/
def rowAt? (results : Results) (row column : Path) : Option Row :=
  (results.get? (.ofPaths row column)).bind fun rows =>
    rows.find? fun r => r.headers (row.keys ++ column.keys) == row.headers ++ column.headers

end Results

/-- The table has the leaves of its trees, and in each tree every row is beneath just one leaf that
is no summary. -/
structure Table.ShowsOnce (t : Table) (p : Pivot) (rows : List Row) : Prop where
  rowLeaves : t.rowLeaves = t.rowTree.leaves.map Header.path
  columnLeaves : t.columnLeaves = t.columnTree.leaves.map Header.path
  row : Header.ShowOnce t.rowTree.leaves p.rows rows
  column : Header.ShowOnce t.columnTree.leaves p.columns rows

namespace Pivot

variable {p : Pivot} {c : Collapsed} {results : Results} {row column : Path}

theorem fst_cellAt? (row column : Path) (m : Indexes results) :
    ((p.cellAt? results row column).run m).1 = (results.rowAt? row column).map p.cellOf := by
  have hindex := Indexes.fst_index? (.ofPaths row column) m
  have hfind : ((p.cellAt? results row column).run m).1 =
      ((Indexes.index? (.ofPaths row column) m).1.bind fun index =>
        index[row.headers ++ column.headers]?.bind fun r => some (p.cellOf r)) := rfl
  rw [hfind, hindex, Grouping.index?, Results.rowAt?]
  cases results.get? (.ofPaths row column) with
  | none => rfl
  | some rows =>
    simp only [Option.map_some, Option.bind_some, RowIndex.getElem?_ofRows]
    rw [Option.map_eq_bind]
    rfl

theorem cells_eq (p : Pivot) (results : Results) (rowLeaves columnLeaves : List Path) :
    p.cells results rowLeaves columnLeaves = rowLeaves.map fun row =>
      columnLeaves.map fun column => (results.rowAt? row column).map p.cellOf :=
  run_mapM_fst (fun row m => run_mapM_fst (fun column m => fst_cellAt? row column m) _ m) _ _

theorem cell?_table {i j : Nat} (hrow : (p.table c results).rowLeaves[i]? = some row)
    (hcolumn : (p.table c results).columnLeaves[j]? = some column) :
    (p.table c results).cell? i j = (results.rowAt? row column).map p.cellOf := by
  have hcells : (p.table c results).cells =
      p.cells results (p.table c results).rowLeaves (p.table c results).columnLeaves := rfl
  rw [Table.cell?, hcells, cells_eq, List.getElem?_map, hrow]
  simp only [Option.map_some, Option.bind_some, List.getElem?_map, hcolumn, Option.join_some]

/-- What stands in the cell of two leaves: nothing if no row of their grouping has their values,
and else the measures of the first row that has them. -/
inductive IsCellAt (p : Pivot) (results : Results) (row column : Path) : Option Cell → Prop where
  | empty (hnone : ∀ rows, results.get? (.ofPaths row column) = some rows → ∀ r ∈ rows,
      (r.headers (row.keys ++ column.keys) == row.headers ++ column.headers) = false) :
    IsCellAt p results row column none
  | first {before after : List Row} {r : Row}
    (hrows : results.get? (.ofPaths row column) = some (before ++ r :: after))
    (hbefore : ∀ s ∈ before,
      (s.headers (row.keys ++ column.keys) == row.headers ++ column.headers) = false)
    (hr : (r.headers (row.keys ++ column.keys) == row.headers ++ column.headers) = true) :
    IsCellAt p results row column (some ⟨p.measures.map fun m => r.get? (p.outputKey m)⟩)

theorem isCellAt_rowAt? (p : Pivot) (results : Results) (row column : Path) :
    p.IsCellAt results row column ((results.rowAt? row column).map p.cellOf) := by
  cases hr : results.rowAt? row column with
  | none =>
    refine .empty fun rows hrows r hm => ?_
    rw [Results.rowAt?, hrows, Option.bind_some, List.find?_eq_none] at hr
    simpa using hr r hm
  | some r =>
    rw [Results.rowAt?, Option.bind_eq_some_iff] at hr
    obtain ⟨rows, hrows, hfind⟩ := hr
    obtain ⟨hr, before, after, rfl, hbefore⟩ := List.find?_eq_some_iff_append.mp hfind
    exact .first hrows (fun s hs => by simpa using hbefore s hs) hr

/-- A table has a line of cells for each row leaf, and in it a cell for each column leaf, which is
the one that going through the rows of their grouping one after the other finds. -/
theorem cells_show_first_rows (p : Pivot) (c : Collapsed) (results : Results) :
    List.Forall₂
      (fun row line => List.Forall₂ (p.IsCellAt results row) (p.table c results).columnLeaves line)
      (p.table c results).rowLeaves (p.table c results).cells := by
  have hcells : (p.table c results).cells =
      p.cells results (p.table c results).rowLeaves (p.table c results).columnLeaves := rfl
  rw [hcells, cells_eq, List.forall₂_map_right_iff, List.forall₂_same]
  intro row _
  rw [List.forall₂_map_right_iff, List.forall₂_same]
  exact fun column _ => isCellAt_rowAt? p results row column

/-- The leaves between which these cells stand: each row of the finest grouping is beneath one row
leaf and one column leaf. -/
theorem showsOnce_table (p : Pivot) (c : Collapsed) {results : Results} {rows : List Row}
    (hbase : results.get? p.full = some rows) (hrows : rows ≠ []) :
    (p.table c results).ShowsOnce p rows := by
  have hrow : (p.table c results).rowTree = Header.ofRows c p.options.showSummary p.rows rows := by
    rw [table, hbase]
    rfl
  have hcolumn : (p.table c results).columnTree =
      Header.ofRows c p.options.showSummary p.columns rows := by
    rw [table, hbase]
    rfl
  constructor
  · rfl
  · rfl
  · rw [hrow]
    exact Header.showOnce_ofRows c p.options.showSummary p.rows hrows
  · rw [hcolumn]
    exact Header.showOnce_ofRows c p.options.showSummary p.columns hrows

end Pivot

end ChartQuery
