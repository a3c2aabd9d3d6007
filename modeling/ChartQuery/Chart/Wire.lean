import ChartQuery.Chart.View
import ChartQuery.Expression.Wire

namespace ChartQuery

open Json (required withDefault optional list? pair? str? word? bool? uint64? record)

namespace Role

def word : Role → String
  | dimension => "dimension"
  | measure => "measure"

def toJson (x : Role) : Json := .str x.word

def ofJson? : Passage → Json → Option Role := Json.oneOf? [.dimension, .measure] word

end Role

namespace Field

def members (f : Field) : List (String × Option Json) :=
  [("fid", some (.str f.fid)), ("name", some (.str f.name)), ("analyticType", some f.role.toJson),
    ("aggName", f.agg.map .str), ("computed", some (.bool f.computed)),
    ("expression", f.expression.map Expression.toJson)]

def toJson (f : Field) : Json := record f.members

def ofJson? (passage : Passage) (j : Json) : Option Field := do
  return {
    fid := ← j.required "fid" str?
    name := ← j.withDefault "name" "" str?
    role := ← j.required "analyticType" (Role.ofJson? passage)
    agg := ← j.optional "aggName" str?
    computed := ← j.withDefault "computed" false bool?
    expression := ← j.optional "expression" (Expression.ofJson? passage) }

end Field

namespace ShelfRule

def toJson : ShelfRule → Json
  | oneOf values => .tagged "one of" (.arr (values.map Literal.toJson))
  | range lo hi => .tagged "range" (.arr [lo.toJson, hi.toJson])
  | temporalRange lo hi => .tagged "temporal range" (.arr [lo.toJson, hi.toJson])

def ofJson? (j : Json) : Option ShelfRule :=
  match j.get? "value", j.required "type" (word? .direct) with
  | some v, some "one of" => (list? Literal.ofJson? v).map .oneOf
  | some v, some "range" =>
    (pair? Literal.ofJson? Literal.ofJson? v).map fun (lo, hi) => .range lo hi
  | some v, some "temporal range" =>
    (pair? Literal.ofJson? Literal.ofJson? v).map fun (lo, hi) => .temporalRange lo hi
  | _, _ => none

end ShelfRule

namespace ShelfFilter

/-- The rule stands among the members of the field, which are held until it is taken out. -/
def toJson (f : ShelfFilter) : Json :=
  record (f.field.members ++ [("rule", f.rule.map ShelfRule.toJson)])

def ofJson? (j : Json) : Option ShelfFilter := do
  return ⟨← Field.ofJson? .held j, ← j.optional "rule" ShelfRule.ofJson?⟩

end ShelfFilter

namespace SortDirection

def word : SortDirection → String
  | ascending => "ascending"
  | descending => "descending"

def toJson (x : SortDirection) : Json := .str x.word

def ofJson? : Passage → Json → Option SortDirection :=
  Json.oneOf? [.ascending, .descending] word

end SortDirection

namespace SortMode

def word : SortMode → String
  | unsorted => "none"
  | ascending => "ascending"
  | descending => "descending"

def toJson (x : SortMode) : Json := .str x.word

def ofJson? : Json → Option SortMode :=
  Json.oneOf? [.unsorted, .ascending, .descending] word .direct

end SortMode

namespace View

def toJson (v : View) : Json :=
  record [("filters", some (.arr (v.filters.map ShelfFilter.toJson))),
    ("allFields", some (.arr (v.allFields.map Field.toJson))),
    ("dimensions", some (.arr (v.dimensions.map Field.toJson))),
    ("measures", some (.arr (v.measures.map Field.toJson))),
    ("defaultAggregated", some (.bool v.aggregates)), ("sort", some v.sort.toJson),
    ("folds", some (.strings v.folds)), ("limit", v.limit.map fun n => .int n.toNat)]

def ofJson? (j : Json) : Option View := do
  guard j.isObj
  return {
    filters := ← j.withDefault "filters" [] (list? ShelfFilter.ofJson?)
    allFields := ← j.withDefault "allFields" [] (list? (Field.ofJson? .direct))
    dimensions := ← j.withDefault "dimensions" [] (list? (Field.ofJson? .direct))
    measures := ← j.withDefault "measures" [] (list? (Field.ofJson? .direct))
    aggregates := ← j.withDefault "defaultAggregated" false bool?
    sort := ← j.withDefault "sort" .unsorted SortMode.ofJson?
    folds := ← j.withDefault "folds" [] (list? str?)
    limit := ← j.optional "limit" uint64? }

end View

namespace CyclePolicy

def word : CyclePolicy → String
  | reject => "reject"
  | keep => "keepDiscoveryOrder"

def toJson (x : CyclePolicy) : Json := .str x.word

def ofJson? : Json → Option CyclePolicy := Json.oneOf? [.reject, .keep] word .direct

end CyclePolicy

namespace Settings

def toJson (s : Settings) : Json :=
  .obj [("foldKeyFid", .str s.foldKey), ("foldValueFid", .str s.foldValue),
    ("defaultAggregation", .str s.aggregation), ("cyclePolicy", s.cyclePolicy.toJson)]

def ofJson? (j : Json) : Option Settings := do
  guard j.isObj
  return {
    foldKey := ← j.withDefault "foldKeyFid" default.foldKey str?
    foldValue := ← j.withDefault "foldValueFid" default.foldValue str?
    aggregation := ← j.withDefault "defaultAggregation" default.aggregation str?
    cyclePolicy := ← j.withDefault "cyclePolicy" default.cyclePolicy CyclePolicy.ofJson? }

end Settings

end ChartQuery
