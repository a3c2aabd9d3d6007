import ChartQuery.Pivot.Basic

namespace ChartQuery.Pivot

/-- The leading parts of an axis that some header groups by, the whole axis last. With summaries
these are all, else those that end in a collapsed dimension. -/
def leadingParts (dims : List String) (c : Collapsed) (summary : Bool) : List (List String) :=
  let lengths :=
    if summary then List.range dims.length
    else (dims.zipIdx.filter fun d => c.endsIn d.1).map (·.2 + 1)
  lengths.map dims.take ++ [dims]

/-- All pairs of a row and a column part, the row part changing faster. -/
def pairings (rows columns : List String) (c : Collapsed) (summary : Bool) : List Grouping :=
  (leadingParts columns c summary).flatMap fun cs =>
    (leadingParts rows c summary).map fun rs => ⟨rs, cs⟩

/-- The groupings without repetition, the finest one last. -/
def groupings (rows columns : List String) (c : Collapsed) (summary : Bool) : List Grouping :=
  let full : Grouping := ⟨rows, columns⟩
  distinct ((pairings rows columns c summary).filter (· != full)) ++ [full]

end ChartQuery.Pivot
