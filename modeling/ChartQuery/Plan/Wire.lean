import ChartQuery.Chart.Wire
import ChartQuery.Plan.Basic

namespace ChartQuery

open Json (required optional list? pair? str? word? real? int64? uint64? record)

namespace Condition

def toJson : Condition → Json
  | oneOf values => .tagged "one of" (.arr (values.map Literal.toJson))
  | range lo hi => .tagged "range" (.arr [.ofReal lo, .ofReal hi])
  | temporalRange lo hi => .tagged "temporal range" (.arr [.int lo.toInt, .int hi.toInt])

def ofJson? (passage : Passage) (j : Json) : Option Condition :=
  match j.get? "value", j.required "type" (word? passage) with
  | some v, some "one of" => (list? Literal.ofJson? v).map .oneOf
  | some v, some "range" => (pair? real? real? v).map fun (lo, hi) => .range lo hi
  | some v, some "temporal range" =>
    (pair? int64? int64? v).map fun (lo, hi) => .temporalRange lo hi
  | _, _ => none

end Condition

namespace RowFilter

def toJson (f : RowFilter) : Json := .obj [("fid", .str f.fid), ("rule", f.condition.toJson)]

def ofJson? (passage : Passage) (j : Json) : Option RowFilter := do
  return ⟨← j.required "fid" str?, ← j.required "rule" (Condition.ofJson? passage)⟩

end RowFilter

namespace Transform

def toJson (t : Transform) : Json :=
  .obj [("key", .str t.key), ("expression", t.expression.toJson)]

def ofJson? (passage : Passage) (j : Json) : Option Transform := do
  return ⟨← j.required "key" str?, ← j.required "expression" (Expression.ofJson? passage)⟩

end Transform

namespace Measure

def toJson (m : Measure) : Json :=
  .obj [("field", .str m.field), ("agg", .str m.agg), ("asFieldKey", .str m.output)]

def ofJson? (j : Json) : Option Measure := do
  return ⟨← j.required "field" str?, ← j.required "agg" str?, ← j.required "asFieldKey" str?⟩

end Measure

namespace ViewQuery

def toJson : ViewQuery → Json
  | aggregate groupBy measures =>
    .obj [("op", .str "aggregate"), ("groupBy", .strings groupBy),
      ("measures", .arr (measures.map Measure.toJson))]
  | raw fields => .obj [("op", .str "raw"), ("fields", .strings fields)]

/-- The kind of a query by its word, or by its place if the query is held. -/
def tag? (passage : Passage) (j : Json) : Option String :=
  match passage, j with
  | _, .str s => some s
  | .held, .int 0 => some "aggregate"
  | .held, .int 1 => some "raw"
  | _, _ => none

def ofJson? (passage : Passage) (j : Json) : Option ViewQuery :=
  match j.required "op" (tag? passage) with
  | some "aggregate" => do
    return .aggregate (← j.required "groupBy" (list? str?))
      (← j.required "measures" (list? Measure.ofJson?))
  | some "raw" => (j.required "fields" (list? str?)).map .raw
  | _ => none

end ViewQuery

namespace StepKind

def word : StepKind → String
  | filter => "filter"
  | transform => "transform"
  | view => "view"
  | sort => "sort"

def toJson (k : StepKind) : Json := .str k.word

def ofWord? (s : String) : Option StepKind :=
  [filter, transform, view, sort].find? (word · == s)

def ofJson? (j : Json) : Option StepKind := (word? .direct j).bind ofWord?

end StepKind

namespace Step

def payload : Step → List (String × Json)
  | filter filters => [("filters", .arr (filters.map RowFilter.toJson))]
  | transform fields => [("transform", .arr (fields.map Transform.toJson))]
  | view queries => [("query", .arr (queries.map ViewQuery.toJson))]
  | sort keys direction => [("by", .strings keys), ("sort", direction.toJson)]

def toJson (s : Step) : Json := .obj (("type", s.kind.toJson) :: s.payload)

/-- What a step holds beside its kind is held until the kind is known. -/
def ofJson? (j : Json) : Option Step :=
  match (j.required "type" str?).bind StepKind.ofWord? with
  | some .filter => (j.required "filters" (list? (RowFilter.ofJson? .held))).map .filter
  | some .transform =>
    (j.required "transform" (list? (Transform.ofJson? .held))).map .transform
  | some .view => (j.required "query" (list? (ViewQuery.ofJson? .held))).map .view
  | some .sort => do
    return .sort (← j.required "by" (list? str?))
      (← j.required "sort" (SortDirection.ofJson? .held))
  | none => none

end Step

namespace Plan

def toJson (p : Plan) : Json :=
  record [("workflow", some (.arr (p.steps.map Step.toJson))),
    ("limit", p.limit.map fun n => .int n.toNat)]

def ofJson? (j : Json) : Option Plan := do
  return ⟨← j.required "workflow" (list? Step.ofJson?), ← j.optional "limit" uint64?⟩

end Plan

end ChartQuery
