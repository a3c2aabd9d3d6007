import ChartQuery.Chart.Field
import ChartQuery.Transform.Basic

namespace ChartQuery

inductive SortDirection where
  | ascending
  | descending
  deriving DecidableEq, Repr

inductive SortMode where
  | unsorted
  | ascending
  | descending
  deriving DecidableEq, Repr

def SortMode.direction? : SortMode → Option SortDirection
  | .unsorted => none
  | .ascending => some .ascending
  | .descending => some .descending

/-- What a chart shows: its shelves, and the fields of its dataset. -/
structure View where
  filters : List ShelfFilter
  /-- All fields of the dataset, the computed ones among them. -/
  allFields : List Field
  dimensions : List Field
  measures : List Field
  /-- Measures are aggregated where that makes sense. -/
  aggregates : Bool
  sort : SortMode
  /-- The fields that stand behind the fold pair. -/
  folds : List String
  limit : Option UInt64

structure Settings where
  /-- The dimension and the measure that stand for all folded fields. -/
  foldKey : String
  foldValue : String
  /-- The aggregation of a measure that names none. -/
  aggregation : String
  cyclePolicy : CyclePolicy
  deriving DecidableEq, Repr

def Settings.default : Settings := ⟨"gw_mea_key_fid", "gw_mea_val_fid", "sum", .reject⟩

end ChartQuery
