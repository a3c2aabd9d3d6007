import ChartQuery.Compile.Condition
import ChartQuery.Transform.Needed
import ChartQuery.Transform.Order

namespace ChartQuery

/-- The dimensions and measures of a view after its folds are unfolded. -/
structure Shelves where
  dimensions : List Field
  measures : List Field

namespace View

def field? (v : View) (fid : String) : Option Field := v.allFields.find? (·.fid == fid)

/-- A fold with the aggregation of the fold value. -/
def foldedField (v : View) (s : Settings) (agg : Option String) (fid : String) :
    Except CompileError Field :=
  match v.field? fid with
  | some f => .ok { f with agg }
  | none => .error (.unknownField fid s.foldValue)

/-- The fields behind the fold pair, if both halves of it are on their shelves. -/
def foldedFields (v : View) (s : Settings) : Except CompileError (List Field) :=
  match v.measures.find? (·.fid == s.foldValue) with
  | some value =>
    if v.dimensions.any (·.fid == s.foldKey) then v.folds.mapM (v.foldedField s value.agg)
    else .ok []
  | none => .ok []

/-- The shelves without the fold pair, and with the folded fields at their ends. -/
def shelves (v : View) (s : Settings) : Except CompileError Shelves := do
  let folded ← v.foldedFields s
  return {
    dimensions := v.dimensions.filter (·.fid != s.foldKey) ++ folded.filter (·.isDimension)
    measures := v.measures.filter (·.fid != s.foldValue) ++ folded.filter (!·.isDimension) }

def keys (v : View) (shelves : Shelves) : List String :=
  shelves.dimensions.map Field.fid ++ shelves.measures.map Field.fid ++
    v.filters.map ShelfFilter.fid

def rowFilters (v : View) (computed : Bool) : Except CompileError (List RowFilter) :=
  (v.filters.filter (·.isComputed == computed)).mapM ShelfFilter.compile

def transform? (f : Field) : Option Transform :=
  if f.computed then f.expression.map fun e => ⟨f.fid, e.normalize⟩ else none

def neededTransforms (v : View) (shelves : Shelves) : List Transform :=
  Transform.needed (v.keys shelves) (v.allFields.filterMap transform?)

def missing? (v : View) (t : Transform) : Option String :=
  t.references.find? fun fid => (v.field? fid).isNone

def checkReferences (v : View) (t : Transform) : Except CompileError Unit :=
  match v.missing? t with
  | some fid => .error (.unknownField fid t.key)
  | none => .ok ()

def checkedTransforms (v : View) (shelves : Shelves) : Except CompileError (List Transform) := do
  let ts := v.neededTransforms shelves
  ts.forM v.checkReferences
  return ts

def orderedTransforms (s : Settings) (ts : List Transform) :
    Except CompileError (List Transform) :=
  match Transform.order s.cyclePolicy ts with
  | .ok ts => .ok ts
  | .error keys => .error (.circle keys)

/-- A view is aggregated if it asks for that, and some measure names an aggregation or there are
dimensions alone. -/
def isAggregated (v : View) (shelves : Shelves) : Bool :=
  v.aggregates && (shelves.measures.any (·.agg.isSome) ||
    (shelves.measures.isEmpty && !shelves.dimensions.isEmpty))

def aggregation (s : Settings) (f : Field) : String := f.agg.getD s.aggregation

def query (s : Settings) (shelves : Shelves) (aggregated : Bool) : ViewQuery :=
  if aggregated then
    .ofMeasures (shelves.dimensions.map Field.fid)
      (shelves.measures.map fun f => .new f.fid (aggregation s f))
  else .ofFields (shelves.dimensions.map Field.fid ++ shelves.measures.map Field.fid)

def sortKeys (s : Settings) (shelves : Shelves) (aggregated : Bool) : List String :=
  distinct (shelves.measures.map fun f =>
    if aggregated then outputKey f.fid (some (aggregation s f)) else f.fid)

/-- Only a view with a limit is sorted. -/
def sortStep? (v : View) (s : Settings) (shelves : Shelves) (aggregated : Bool) : Option Step :=
  if v.limit.any (0 < ·) then
    v.sort.direction?.map (.sort (sortKeys s shelves aggregated))
  else none

/-- The plan of a view. Steps that do nothing are left out. -/
def compile (v : View) (s : Settings) : Except CompileError Plan := do
  let shelves ← v.shelves s
  let rawFilters ← v.rowFilters false
  let transforms ← orderedTransforms s (← v.checkedTransforms shelves)
  let computedFilters ← v.rowFilters true
  let aggregated := v.isAggregated shelves
  return .ofSteps
    [some (.filter rawFilters), some (.transform transforms), some (.filter computedFilters),
      some (.view [query s shelves aggregated]), v.sortStep? s shelves aggregated]
    v.limit

end View

end ChartQuery
