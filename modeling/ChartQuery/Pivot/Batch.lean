import ChartQuery.Pivot.Cache
import ChartQuery.Pivot.Generation
import ChartQuery.Pivot.Groupings
import ChartQuery.Pivot.Results

namespace ChartQuery

inductive QueryError where
  | failed (report : String)
  | aborted (report : String)
  deriving DecidableEq, Repr

def QueryError.message : QueryError → String
  | failed report => "Query execution failed: " ++ report
  | aborted report => "Query task aborted: " ++ report

/-- How the task of a query ended. A lost task did not come to its end. -/
inductive TaskEnd where
  | rows (rows : List Row)
  | error (e : QueryError)
  | lost (report : String)
  deriving DecidableEq, Repr

def TaskEnd.rows? : TaskEnd → Option (List Row)
  | rows rs => some rs
  | _ => none

/-- The tasks of a batch that have ended, in that order. -/
abbrev TaskEnds := List (Grouping × TaskEnd)

structure Request where
  pivot : Pivot
  collapsed : Collapsed
  /-- A number that changes with the rows of the dataset. -/
  version : UInt64
  deriving DecidableEq, Repr

namespace Request

def signature (r : Request) : Signature := .of r.pivot r.version

def groupings (r : Request) : List Grouping :=
  Pivot.groupings r.pivot.rows r.pivot.columns r.collapsed r.pivot.options.showSummary

def query (r : Request) (g : Grouping) : ViewQuery :=
  g.query r.pivot.measures r.pivot.options.aggregated

def missing (r : Request) (c : Cache) : List Grouping :=
  r.groupings.filter fun g => !(c.isValidFor r.signature && c.contains g)

def queries (r : Request) (c : Cache) : List ViewQuery := (r.missing c).map r.query

def fetched (ends : TaskEnds) : Memo Grouping (List Row) :=
  ends.foldl (fun m e => match e.2.rows? with
    | some rows => m.insert e.1 rows
    | none => m) .empty

def settleOne (fetched : Memo Grouping (List Row)) (s : Cache × Results) (g : Grouping) :
    Cache × Results :=
  let cache := match fetched.get? g with
    | some rows => s.1.insert g rows
    | none => s.1
  match cache.get? g with
  | some rows => (cache, s.2.insert g rows)
  | none => (cache, s.2.insertFailed g)

/-- Takes what was fetched into the cache, and from there the rows of all groupings. -/
def settle (r : Request) (c : Cache) (ends : TaskEnds) : Cache × Results :=
  r.groupings.foldl (settleOne (fetched ends)) (c.validate r.signature, .empty)

inductive Outcome where
  | stale
  | ready (results : Results)
  deriving Repr

def Outcome.results? : Outcome → Option Results
  | stale => none
  | ready results => some results

/-- Ends a batch whose tasks are done. A stale one leaves the cache as it is. -/
def finish (r : Request) (c : Cache) (ends : TaskEnds) (g : Generation) (ticket : UInt64) :
    Cache × Outcome :=
  if g.isCurrent ticket then
    let (c, results) := r.settle c ends
    (c, .ready results)
  else (c, .stale)

end Request

end ChartQuery
