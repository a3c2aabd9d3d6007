import ChartQuery.Pivot.Path
import ChartQuery.Pivot.Row

namespace ChartQuery

/-- The rows with one value in a dimension; its children divide them by the next dimension. -/
structure Header where
  /-- The dimension of this level, empty at the root and in a summary. -/
  key : String
  value : Literal
  /-- The segments from the root to this header. -/
  path : Path
  depth : Nat
  children : List Header
  /-- Stands for all beneath it, which is hidden. -/
  isCollapsed : Bool
  /-- Stands for all of its parent. -/
  isSummary : Bool

namespace Header

def isLeaf (h : Header) : Bool := h.children.isEmpty

mutual

def leaves : Header → List Header
  | ⟨key, value, path, depth, [], collapsed, summary⟩ =>
    [⟨key, value, path, depth, [], collapsed, summary⟩]
  | ⟨_, _, _, _, child :: children, _, _⟩ => leaves child ++ leavesIn children

def leavesIn : List Header → List Header
  | [] => []
  | h :: headers => leaves h ++ leavesIn headers

end

def summaryOf (path : Path) : Header := ⟨"", .null, path, path.length + 1, [], false, true⟩

/-- Ends the children of a header with its summary, if there are any. -/
def withSummary (summary : Bool) (path : Path) (children : List Header) : List Header :=
  if summary && !children.isEmpty then children ++ [summaryOf path] else children

/-- The headers beneath a path along the remaining dimensions: one for each value that the rows
have in the next dimension. -/
def beneath (c : Collapsed) (summary : Bool) : List String → Path → List Row → List Header
  | [], _, _ => []
  | key :: dims, path, rows =>
    (HeaderValue.ascending (rows.map (·.header key))).map fun v =>
      let here := path ++ [⟨key, v.toLiteral⟩]
      let collapsed := c.contains here
      let children :=
        if collapsed then []
        else
          withSummary summary here
            (beneath c summary dims here (rows.filter fun r => r.header key == v))
      ⟨key, v.toLiteral, here, here.length, children, collapsed, false⟩

/-- The tree of an axis for the rows of the finest grouping. -/
def ofRows (c : Collapsed) (summary : Bool) (dims : List String) (rows : List Row) : Header :=
  ⟨"", .null, [], 0, withSummary summary [] (beneath c summary dims [] rows), false, false⟩

end Header

end ChartQuery
