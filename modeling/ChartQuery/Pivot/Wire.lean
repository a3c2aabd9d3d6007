import ChartQuery.Pivot.Batch
import ChartQuery.Pivot.Table
import ChartQuery.Plan.Wire

namespace ChartQuery

open Json (required withDefault list? pair? str? bool? real?)

namespace PivotOptions

def toJson (o : PivotOptions) : Json :=
  .obj [("showSummary", .bool o.showSummary), ("defaultAggregated", .bool o.aggregated)]

def ofJson? (j : Json) : Option PivotOptions := do
  guard j.isObj
  return ⟨← j.withDefault "showSummary" default.showSummary bool?,
    ← j.withDefault "defaultAggregated" default.aggregated bool?⟩

end PivotOptions

namespace Pivot

def toJson (p : Pivot) : Json :=
  .obj [("rows", .strings p.rows), ("columns", .strings p.columns),
    ("measures", .arr (p.measures.map Measure.toJson)), ("config", p.options.toJson)]

def ofJson? (j : Json) : Option Pivot := do
  guard j.isObj
  return {
    rows := ← j.withDefault "rows" [] (list? str?)
    columns := ← j.withDefault "columns" [] (list? str?)
    measures := ← j.withDefault "measures" [] (list? Measure.ofJson?)
    options := ← j.withDefault "config" .default PivotOptions.ofJson? }

end Pivot

namespace Segment

def toJson (s : Segment) : Json := .obj [("key", .str s.key), ("value", s.value.toJson)]

def ofJson? (j : Json) : Option Segment := do
  return ⟨← j.required "key" str?, ← j.required "value" Literal.ofJson?⟩

end Segment

namespace Path

def toJson (p : Path) : Json := .arr (p.map Segment.toJson)

def ofJson? : Json → Option Path := list? Segment.ofJson?

end Path

namespace Collapsed

def toJson (c : Collapsed) : Json :=
  .arr (c.entries.map fun e => .arr [.str e.1, Path.toJson e.2])

/-- All entries are kept, also those that repeat an id. -/
def ofJson? (j : Json) : Option Collapsed := (list? (pair? str? Path.ofJson?) j).map .mk

end Collapsed

namespace Grouping

def toJson (g : Grouping) : Json :=
  .obj [("rows", .strings g.rows), ("columns", .strings g.columns)]

def ofJson? (j : Json) : Option Grouping := do
  return ⟨← j.required "rows" (list? str?), ← j.required "columns" (list? str?)⟩

end Grouping

namespace HeaderValue

def toJson : HeaderValue → Json
  | null => .str "Null"
  | number x => .obj [("Number", .ofReal x)]
  | text s => .obj [("Text", .str s)]
  | boolean b => .obj [("Boolean", .bool b)]

def ofJson? : Json → Option HeaderValue
  | .obj [("Number", v)] => (real? v).map number
  | .obj [("Text", v)] => (str? v).map text
  | .obj [("Boolean", v)] => (bool? v).map boolean
  | j => if Json.word? .direct j = some "Null" then some null else none

end HeaderValue

def Row.toJson (r : Row) : Json := .obj (r.map fun column => (column.1, column.2.toJson))

def rowsToJson (rows : List Row) : Json := .arr (rows.map Row.toJson)

namespace Header

mutual

def toJson : Header → Json
  | ⟨key, value, path, depth, children, collapsed, summary⟩ =>
    .obj [("key", .str key), ("value", value.toJson), ("path", Path.toJson path),
      ("depth", .int depth), ("children", .arr (listToJson children)),
      ("isCollapsed", .bool collapsed), ("isSummary", .bool summary)]

def listToJson : List Header → List Json
  | [] => []
  | h :: headers => toJson h :: listToJson headers

end

end Header

def Cell.toJson (c : Cell) : Json :=
  .obj [("values", .arr (c.values.map fun v => (v.map Literal.toJson).getD .null))]

/-- A cell, null where there is none. -/
def Cell.optionToJson (c : Option Cell) : Json := (c.map Cell.toJson).getD .null

namespace Table

/-- The members of a table as a record. -/
def members (t : Table) : List (String × Json) :=
  [("rowTree", t.rowTree.toJson), ("columnTree", t.columnTree.toJson),
    ("rowLeaves", .arr (t.rowLeaves.map Path.toJson)),
    ("columnLeaves", .arr (t.columnLeaves.map Path.toJson)),
    ("matrix", .arr (t.cells.map fun row => .arr (row.map Cell.optionToJson)))]

def toJson (t : Table) : Json := .obj t.members

end Table

end ChartQuery
