import ChartQuery.Expression.Basic

namespace ChartQuery

open Json (required withDefault optional list? pair? str? word? real? uint32? int64? record)

namespace Legend

def indexText (i : UInt32) : String := toString i.toNat

/-- Reads the one decimal text of an index: no sign, no leading zero. -/
def readIndex? (s : String) : Option UInt32 :=
  let n := Text.natOfDigits s.toList
  if toString n = s ∧ n < UInt32.size then some (.ofNat n) else none

def entryToJson (e : LegendEntry) : Json :=
  record [("name", some (.str e.name)), ("color", e.color.map .str)]

def entryOfJson? (j : Json) : Option LegendEntry := do
  return ⟨← j.required "name" str?, ← j.optional "color" str?⟩

def toJson (l : Legend) : Json :=
  .obj (l.entries.map fun p => (indexText p.1, entryToJson p.2))

def memberOfJson? (m : String × Json) : Option (UInt32 × LegendEntry) := do
  return (← readIndex? m.1, ← entryOfJson? m.2)

/-- The entries are keyed by numbers, so a held legend can only be empty. -/
def ofJson? : Passage → Json → Option Legend
  | _, .obj [] => some empty
  | .direct, .obj members => (members.mapM memberOfJson?).map ofList
  | _, _ => none

end Legend

namespace PaintMap

def rangeToJson (r : Binary64 × Binary64) : Json := .arr [.ofReal r.1, .ofReal r.2]

def toJson (m : PaintMap) : Json :=
  .obj [("x", .str m.x), ("y", .str m.y), ("domainX", rangeToJson m.domainX),
    ("domainY", rangeToJson m.domainY), ("map", .str m.grid), ("dict", m.legend.toJson),
    ("usedColor", .arr (m.used.map fun i => .int i.toNat)), ("mapwidth", .int m.width.toNat)]

def ofJson? (passage : Passage) (j : Json) : Option PaintMap := do
  return {
    x := ← j.required "x" str?
    y := ← j.required "y" str?
    domainX := ← j.required "domainX" (pair? real? real?)
    domainY := ← j.required "domainY" (pair? real? real?)
    grid := ← j.required "map" str?
    legend := ← j.required "dict" (Legend.ofJson? passage)
    used := ← j.withDefault "usedColor" [] (list? uint32?)
    width := ← j.required "mapwidth" uint32? }

end PaintMap

/-- A value with the name of its kind beside it. -/
def Json.tagged (tag : String) (v : Json) : Json := .obj [("type", .str tag), ("value", v)]

mutual

def Expression.toJson : Expression → Json
  | ⟨op, params, target⟩ =>
    .obj [("op", .str op), ("params", .arr (Param.listToJson params)), ("as", .str target)]

def Param.toJson : Param → Json
  | .field fid => .tagged "field" (.str fid)
  | .expression e => .tagged "expression" e.toJson
  | .value l => .tagged "value" l.toJson
  | .constant l => .tagged "constant" l.toJson
  | .format s => .tagged "format" (.str s)
  | .offset n => .tagged "offset" (.int n.toInt)
  | .map m => .tagged "map" m.toJson

def Param.listToJson : List Param → List Json
  | [] => []
  | p :: params => p.toJson :: Param.listToJson params

end

mutual

def Expression.ofJson? (passage : Passage) (j : Json) : Option Expression :=
  match _ : j.get? "params" with
  | some (.arr elements) => do
    let op ← j.required "op" str?
    let params ← Param.listOfJson? passage elements
    let target ← j.required "as" str?
    return ⟨op, params, target⟩
  | _ => none
termination_by sizeOf j
decreasing_by
  have := Json.sizeOf_get?_lt ‹j.get? "params" = _›
  simp at this
  omega

def Param.ofJson? (passage : Passage) (j : Json) : Option Param :=
  match _ : j.get? "value", j.required "type" (word? passage) with
  | some v, some "field" => (str? v).map .field
  | some v, some "expression" => (Expression.ofJson? passage v).map .expression
  | some v, some "value" => (Literal.ofJson? v).map .value
  | some v, some "constant" => (Literal.ofJson? v).map .constant
  | some v, some "format" => (str? v).map .format
  | some v, some "offset" => (int64? v).map .offset
  | some v, some "map" => (PaintMap.ofJson? passage v).map .map
  | _, _ => none
termination_by sizeOf j
decreasing_by exact Json.sizeOf_get?_lt ‹j.get? "value" = _›

def Param.listOfJson? (passage : Passage) : List Json → Option (List Param)
  | [] => some []
  | j :: elements => do
    return (← Param.ofJson? passage j) :: (← Param.listOfJson? passage elements)
termination_by elements => sizeOf elements

end

end ChartQuery
