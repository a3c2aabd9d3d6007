import ChartQuery.Expression.PaintMap
import ChartQuery.Literal

namespace ChartQuery

mutual

/-- An operator with its parameters and the key of the field it gives. It is never evaluated here;
what counts is which fields it reads. -/
structure Expression where
  op : String
  params : List Param
  target : String

inductive Param where
  | field (fid : String)
  | expression (e : Expression)
  | value (l : Literal)
  | constant (l : Literal)
  | format (s : String)
  | offset (n : Int64)
  | map (m : PaintMap)

end

namespace Expression

mutual

def references : Expression → List String
  | ⟨_, params, _⟩ => referencesIn params

def paramReferences : Param → List String
  | .field fid => [fid]
  | .expression e => e.references
  | .value _ | .constant _ | .format _ | .offset _ | .map _ => []

/-- The fields that parameters read, left to right, a nested expression in its place. -/
def referencesIn : List Param → List String
  | [] => []
  | p :: params => paramReferences p ++ referencesIn params

end

theorem referencesIn_eq_flatMap (params : List Param) :
    referencesIn params = params.flatMap paramReferences := by
  induction params with
  | nil => rfl
  | cons p params ih => simp [referencesIn, ih]

theorem references_eq (e : Expression) : e.references = e.params.flatMap paramReferences := by
  cases e
  simp [references, referencesIn_eq_flatMap]

/-- The operator whose maps are compacted. -/
def paintOp : String := "paint"

def compactParam : Param → Param
  | .map m => .map m.compact
  | p => p

/-- The expression as it is sent off: a paint operator has its maps compacted. -/
def normalize (e : Expression) : Expression :=
  if e.op = paintOp then { e with params := e.params.map compactParam } else e

theorem paramReferences_compactParam (p : Param) :
    paramReferences (compactParam p) = paramReferences p := by
  cases p <;> simp [compactParam, paramReferences]

@[simp] theorem references_normalize (e : Expression) :
    e.normalize.references = e.references := by
  rw [normalize]
  split
  · simp [references_eq, List.flatMap_map, paramReferences_compactParam]
  · rfl

end Expression

end ChartQuery
