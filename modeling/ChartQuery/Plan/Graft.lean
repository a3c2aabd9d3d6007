import ChartQuery.Plan.Basic

namespace ChartQuery

namespace Plan

/-- Changes the first element that `change` applies to. -/
def updateFirst {α : Type} (change : α → Option α) : List α → Option (List α)
  | [] => none
  | x :: xs =>
    match change x with
    | some y => some (y :: xs)
    | none => (updateFirst change xs).map (x :: ·)

/-- Changes the first step that `change` applies to, or puts `new` in front. -/
def graft (change : Step → Option Step) (new : Step) (steps : List Step) : List Step :=
  (updateFirst change steps).getD (new :: steps)

/-- Appends the fields whose keys are not there yet. -/
def appendTransforms (extra : List Transform) : Step → Option Step
  | .transform fields =>
    some (.transform (fields ++ extra.filter fun t => !fields.any (·.key == t.key)))
  | _ => none

def prependFilters (extra : List RowFilter) : Step → Option Step
  | .filter filters => some (.filter (extra ++ filters))
  | _ => none

/-- Adds computed fields; of two with one key the first one counts. -/
def withTransforms (p : Plan) (extra : List Transform) : Plan :=
  let extra := distinctBy Transform.key extra
  if extra.isEmpty then p
  else { p with steps := graft (appendTransforms extra) (.transform extra) p.steps }

/-- Adds filters, ahead of those that are there. -/
def withFilters (p : Plan) (extra : List RowFilter) : Plan :=
  if extra.isEmpty then p
  else { p with steps := graft (prependFilters extra) (.filter extra) p.steps }

end Plan

end ChartQuery
