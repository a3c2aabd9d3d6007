import ChartQuery.Distinct

namespace ChartQuery

/-- The column that holds a measure under an aggregation; without one it keeps its own key. -/
def outputKey (fid : String) (agg : Option String) : String :=
  match agg with
  | some agg => if agg = "" then fid else fid ++ "_" ++ agg
  | none => fid

structure Measure where
  field : String
  agg : String
  /-- The column of the result. -/
  output : String
  deriving DecidableEq, Repr

def Measure.new (field agg : String) : Measure := ⟨field, agg, outputKey field (some agg)⟩

inductive ViewQuery where
  | aggregate (groupBy : List String) (measures : List Measure)
  | raw (fields : List String)
  deriving DecidableEq, Repr

namespace ViewQuery

/-- An aggregate query with one measure for each column. -/
def ofMeasures (groupBy : List String) (measures : List Measure) : ViewQuery :=
  .aggregate groupBy (distinctBy Measure.output measures)

/-- A raw query that names each field once. -/
def ofFields (fields : List String) : ViewQuery := .raw (distinct fields)

def isAggregate : ViewQuery → Bool
  | .aggregate .. => true
  | .raw .. => false

end ViewQuery

end ChartQuery
