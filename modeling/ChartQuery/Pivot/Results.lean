import ChartQuery.Pivot.Basic
import ChartQuery.Pivot.Memo
import ChartQuery.Pivot.Row

namespace ChartQuery

/-- The rows of a batch by grouping, and the groupings whose queries failed. -/
structure Results where
  /-- In the order in which they were first recorded. -/
  groupings : List Grouping
  entries : Memo Grouping (List Row)
  failed : List Grouping
  deriving Repr

namespace Results

def empty : Results := ⟨[], .empty, []⟩

def get? (r : Results) (g : Grouping) : Option (List Row) := r.entries.get? g

def insert (r : Results) (g : Grouping) (rows : List Row) : Results :=
  { r with
    groupings := if r.entries.contains g then r.groupings else r.groupings ++ [g]
    entries := r.entries.insert g rows }

/-- Records a failure, which reads as no rows. -/
def insertFailed (r : Results) (g : Grouping) : Results :=
  { r.insert g [] with failed := r.failed ++ [g] }

def size (r : Results) : Nat := r.groupings.length

def isEmpty (r : Results) : Bool := r.groupings.isEmpty

end Results

end ChartQuery
