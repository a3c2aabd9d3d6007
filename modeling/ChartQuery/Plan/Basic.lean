import ChartQuery.Chart.View
import ChartQuery.Plan.Query
import ChartQuery.Transform.Basic

namespace ChartQuery

/-- What a row must meet; temporal end points are milliseconds of UTC. -/
inductive Condition where
  | oneOf (values : List Literal)
  | range (lo hi : Binary64)
  | temporalRange (lo hi : Int64)
  deriving DecidableEq, Repr

structure RowFilter where
  fid : String
  condition : Condition
  deriving DecidableEq, Repr

inductive StepKind where
  | filter
  | transform
  | view
  | sort
  deriving DecidableEq, Repr

inductive Step where
  | filter (filters : List RowFilter)
  | transform (fields : List Transform)
  | view (queries : List ViewQuery)
  | sort (keys : List String) (direction : SortDirection)

namespace Step

def kind : Step → StepKind
  | filter _ => .filter
  | transform _ => .transform
  | view _ => .view
  | sort .. => .sort

/-- True if the step does nothing. -/
def isEmpty : Step → Bool
  | filter filters => filters.isEmpty
  | transform fields => fields.isEmpty
  | view queries => queries.isEmpty
  | sort keys _ => keys.isEmpty

end Step

/-- The steps from the rows of a dataset to the rows of a chart. -/
structure Plan where
  steps : List Step
  limit : Option UInt64

namespace Plan

/-- The plan of the steps that are there and do something. -/
def ofSteps (steps : List (Option Step)) (limit : Option UInt64) : Plan :=
  ⟨(steps.filterMap id).filter (!·.isEmpty), limit⟩

def kinds (p : Plan) : List StepKind := p.steps.map Step.kind

def size (p : Plan) : Nat := p.steps.length

def isEmpty (p : Plan) : Bool := p.steps.isEmpty

/-- The queries of the first view step. -/
def queries? (p : Plan) : Option (List ViewQuery) :=
  p.steps.findSome? fun
    | .view queries => some queries
    | _ => none

end Plan

end ChartQuery
