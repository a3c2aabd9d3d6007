import ChartQuery.Pivot.Path
import ChartQuery.Plan.Query

namespace ChartQuery

/-- The dimensions by which the rows of one query are grouped. -/
structure Grouping where
  rows : List String
  columns : List String
  deriving DecidableEq, Repr

namespace Grouping

def ofPaths (row column : Path) : Grouping := ⟨row.map Segment.key, column.map Segment.key⟩

/-- The dimensions of the query, those of the columns first. -/
def groupBy (g : Grouping) : List String := g.columns ++ g.rows

def query (g : Grouping) (measures : List Measure) (aggregated : Bool) : ViewQuery :=
  if aggregated then .ofMeasures g.groupBy measures
  else .ofFields (g.groupBy ++ measures.map Measure.field)

end Grouping

structure PivotOptions where
  /-- Each expanded header gets a line with the aggregate of its parts. -/
  showSummary : Bool
  /-- Without it, cells show raw rows. -/
  aggregated : Bool
  deriving DecidableEq, Repr

def PivotOptions.default : PivotOptions := ⟨false, true⟩

/-- Dimensions stand with the outermost first. -/
structure Pivot where
  rows : List String
  columns : List String
  measures : List Measure
  options : PivotOptions
  deriving DecidableEq, Repr

namespace Pivot

def new (rows columns : List String) (measures : List Measure) : Pivot :=
  ⟨rows, columns, measures, .default⟩

def full (p : Pivot) : Grouping := ⟨p.rows, p.columns⟩

/-- The column of a result that holds a measure; raw rows have it under its own key. -/
def outputKey (p : Pivot) (m : Measure) : String :=
  if p.options.aggregated then m.output else m.field

end Pivot

end ChartQuery
