import ChartQuery.Pivot.Header
import ChartQuery.Pivot.Results
import Std.Data.HashMap

namespace ChartQuery

structure Cell where
  values : List (Option Literal)
  deriving DecidableEq, Repr

structure Table where
  rowTree : Header
  columnTree : Header
  rowLeaves : List Path
  columnLeaves : List Path
  /-- By row leaf, then by column leaf. -/
  cells : List (List (Option Cell))

def Table.cell? (t : Table) (row column : Nat) : Option Cell :=
  (t.cells[row]?.bind (·[column]?)).join

/-- Rows by their values along some dimensions. -/
abbrev RowIndex := Std.HashMap (List HeaderValue) Row

namespace RowIndex

def ofRows (fids : List String) (rows : List Row) : RowIndex :=
  rows.foldl (fun index r => index.insertIfNew (r.headers fids) r) ∅

theorem getElem?_foldl (fids : List String) (rows : List Row) (index : RowIndex)
    (vs : List HeaderValue) :
    (rows.foldl (fun index r => index.insertIfNew (r.headers fids) r) index)[vs]? =
      index[vs]?.or (rows.find? (·.headers fids == vs)) := by
  induction rows generalizing index with
  | nil => simp
  | cons r rows ih =>
    rw [List.foldl_cons, ih, Std.HashMap.getElem?_insertIfNew, List.find?_cons]
    cases h : r.headers fids == vs with
    | false => simp
    | true =>
      by_cases hm : r.headers fids ∈ index
      · have hv := (Std.HashMap.mem_congr h).1 hm
        simp [hm, Std.HashMap.getElem?_eq_some_getElem hv]
      · have hv := mt (Std.HashMap.mem_congr h).2 hm
        simp [hm, Std.HashMap.getElem?_eq_none hv]

/-- Of several rows with the same values the first one counts. -/
theorem getElem?_ofRows (fids : List String) (rows : List Row) (vs : List HeaderValue) :
    (ofRows fids rows)[vs]? = rows.find? (·.headers fids == vs) := by
  simp [ofRows, getElem?_foldl]

end RowIndex

namespace Grouping

/-- The dimensions by which rows are compared with headers, those of the rows first. -/
def dimensions (g : Grouping) : List String := g.rows ++ g.columns

def index? (g : Grouping) (results : Results) : Option RowIndex :=
  (results.get? g).map (RowIndex.ofRows g.dimensions)

end Grouping

/-- The indexes that were built so far; a grouping that has no rows has no index. -/
structure Indexes (results : Results) where
  built : Memo Grouping (Option RowIndex)
  eq_index? : ∀ {g : Grouping} {index? : Option RowIndex},
    built.get? g = some index? → index? = g.index? results

namespace Indexes

variable {results : Results}

def empty : Indexes results := ⟨.empty, by simp⟩

def insert (m : Indexes results) (g : Grouping) : Indexes results where
  built := m.built.insert g (g.index? results)
  eq_index? {g' index?} h := by
    rw [Memo.get?_insert] at h
    split at h
    · simp_all
    · exact m.eq_index? h

/-- The index of a grouping, which is built when it is first asked for. -/
def index? (g : Grouping) : StateM (Indexes results) (Option RowIndex) := fun m =>
  match m.built.get? g with
  | some index? => (index?, m)
  | none => (g.index? results, m.insert g)

theorem fst_index? (g : Grouping) (m : Indexes results) : (index? g m).1 = g.index? results := by
  unfold index?
  split
  case h_1 h => exact m.eq_index? h
  case h_2 => rfl

end Indexes

namespace Path

def headers (path : Path) : List HeaderValue := path.map fun s => .ofLiteral s.value

end Path

namespace Pivot

def cellOf (p : Pivot) (r : Row) : Cell := ⟨p.measures.map fun m => r.get? (p.outputKey m)⟩

/-- The cell of two leaves, if their grouping has a row for it. -/
def cellAt? (p : Pivot) (results : Results) (row column : Path) :
    StateM (Indexes results) (Option Cell) := do
  let index? ← Indexes.index? (.ofPaths row column)
  return do
    let index ← index?
    let r ← index[row.headers ++ column.headers]?
    return p.cellOf r

def cells (p : Pivot) (results : Results) (rowLeaves columnLeaves : List Path) :
    List (List (Option Cell)) :=
  let cells := rowLeaves.mapM fun row => columnLeaves.mapM fun column =>
    p.cellAt? results row column
  (cells.run .empty).1

def table (p : Pivot) (c : Collapsed) (results : Results) : Table :=
  let base := (results.get? p.full).getD []
  let rowTree := Header.ofRows c p.options.showSummary p.rows base
  let columnTree := Header.ofRows c p.options.showSummary p.columns base
  let rowLeaves := rowTree.leaves.map Header.path
  let columnLeaves := columnTree.leaves.map Header.path
  ⟨rowTree, columnTree, rowLeaves, columnLeaves, p.cells results rowLeaves columnLeaves⟩

end Pivot

end ChartQuery
