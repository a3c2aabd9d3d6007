import ChartQuery.Compile.Basic
import ChartQuery.Pivot.Batch

namespace ChartQuery

/-- What is worth telling beside the result itself. -/
inductive Notice where
  | circleKept (keys : List String)
  | compiled (kinds : List StepKind) (aggregated : Bool) (limit : Option UInt64)
  | planned (groupings : Nat) (rows columns : List String) (summary : Bool)
  | cacheDropped (entries : Nat)
  | queryFailed (groupBy : List String) (error : QueryError)
  | taskLost (report : String)
  | batchStale (ticket current : UInt64)
  | batchReady (groupings fetched failed : Nat)
  deriving DecidableEq, Repr

namespace Notice

inductive Level where
  | debug
  | info
  | warn
  deriving DecidableEq, Repr

def Level.word : Level → String
  | debug => "DEBUG"
  | info => "INFO"
  | warn => "WARN"

def level : Notice → Level
  | circleKept _ | queryFailed .. | taskLost _ => .warn
  | batchStale .. => .info
  | compiled .. | planned .. | cacheDropped _ | batchReady .. => .debug

def kindName : StepKind → String
  | .filter => "Filter"
  | .transform => "Transform"
  | .view => "View"
  | .sort => "Sort"

def truthName (b : Bool) : String := if b then "true" else "false"

def limitName : Option UInt64 → String
  | some n => "Some(" ++ toString n.toNat ++ ")"
  | none => "None"

def text : Notice → String
  | circleKept keys =>
    "computed fields in a reference cycle kept in discovery order: " ++ Text.quotedList keys
  | compiled kinds aggregated limit =>
    "compiled workflow: steps=" ++ Text.listed (kinds.map kindName) ++ " aggregated="
      ++ truthName aggregated ++ " limit=" ++ limitName limit
  | planned groupings rows columns summary =>
    "planned " ++ toString groupings ++ " group-by combinations (rows=" ++ Text.quotedList rows
      ++ ", columns=" ++ Text.quotedList columns ++ ", summary=" ++ truthName summary ++ ")"
  | cacheDropped entries =>
    "aggregate cache invalidated (" ++ toString entries ++ " entries dropped)"
  | queryFailed groupBy error =>
    "aggregate for group-by " ++ Text.quotedList groupBy ++ " failed, cells stay empty: "
      ++ error.message
  | taskLost report =>
    "aggregate task did not complete, cells stay empty: " ++ (QueryError.aborted report).message
  | batchStale ticket current =>
    "discarding stale pivot batch (ticket " ++ toString ticket.toNat ++ ", current "
      ++ toString current.toNat ++ ")"
  | batchReady groupings fetched failed =>
    "pivot batch ready: " ++ toString groupings ++ " combinations, " ++ toString fetched
      ++ " fetched, " ++ toString failed ++ " failed"

/-- The notice as a line of a log. -/
def line (n : Notice) : String := n.level.word ++ " " ++ n.text

end Notice

/-- Tells which transforms were left on a circle. -/
def Transform.orderNotices (policy : CyclePolicy) (ts : List Transform) : List Notice :=
  match policy, stuckKeys ts with
  | .keep, key :: keys => [.circleKept (key :: keys)]
  | _, _ => []

namespace View

/-- The transforms that a compilation comes to order, if it gets so far. -/
def transformsToOrder (v : View) (s : Settings) : Except CompileError (List Transform) := do
  let shelves ← v.shelves s
  let _ ← v.rowFilters false
  v.checkedTransforms shelves

def orderNotices (v : View) (s : Settings) : List Notice :=
  match v.transformsToOrder s with
  | .ok ts => Transform.orderNotices s.cyclePolicy ts
  | .error _ => []

def planNotices (v : View) (s : Settings) : List Notice :=
  match v.shelves s, v.compile s with
  | .ok shelves, .ok plan => [.compiled plan.kinds (v.isAggregated shelves) plan.limit]
  | _, _ => []

def notices (v : View) (s : Settings) : List Notice := v.orderNotices s ++ v.planNotices s

end View

def Pivot.groupingNotice (rows columns : List String) (c : Collapsed) (summary : Bool) : Notice :=
  .planned (groupings rows columns c summary).length rows columns summary

def Cache.notices (c : Cache) (s : Signature) : List Notice :=
  if c.dropped s = 0 then [] else [.cacheDropped (c.dropped s)]

def TaskEnd.notices (groupBy : List String) : TaskEnd → List Notice
  | rows _ => []
  | error e => [.queryFailed groupBy e]
  | lost report => [.taskLost report]

namespace Request

/-- What is told when a batch starts. -/
def startNotices (r : Request) : List Notice :=
  [Pivot.groupingNotice r.pivot.rows r.pivot.columns r.collapsed r.pivot.options.showSummary]

/-- What is told when the tasks of a batch are done. -/
def finishNotices (r : Request) (c : Cache) (ends : TaskEnds) (g : Generation)
    (ticket : UInt64) : List Notice :=
  ends.flatMap (fun e => e.2.notices e.1.groupBy) ++
    match (r.finish c ends g ticket).2 with
    | .stale => [.batchStale ticket g.current]
    | .ready results =>
      c.notices r.signature ++
        [.batchReady results.size (fetched ends).size results.failed.length]

end Request

end ChartQuery
