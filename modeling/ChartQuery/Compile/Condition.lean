import ChartQuery.Calendar.Layout
import ChartQuery.Compile.Error
import ChartQuery.Plan.Basic

namespace ChartQuery

/-- The instant of an end point in milliseconds: a finite number counts them already, a text
writes a date or their number. -/
def Literal.toMillis? : Literal → Option Int64
  | number x => if x.isFinite then some x.toInt64 else none
  | text s => Calendar.readMillis? (Text.trim s.toList)
  | _ => none

namespace ShelfRule

def numberAt (l : Literal) : Except FilterFault Binary64 :=
  match l.toNumber? with
  | some x => .ok x
  | none => .error (.notANumber l)

def millisAt (l : Literal) : Except FilterFault Int64 :=
  match l.toMillis? with
  | some n => .ok n
  | none => .error (.notADate l)

def compile : ShelfRule → Except FilterFault Condition
  | oneOf values => .ok (.oneOf values)
  | range lo hi => do return .range (← numberAt lo) (← numberAt hi)
  | temporalRange lo hi => do return .temporalRange (← millisAt lo) (← millisAt hi)

end ShelfRule

namespace ShelfFilter

def condition (f : ShelfFilter) : Except FilterFault Condition :=
  match f.rule with
  | some rule => rule.compile
  | none => .error .noRule

def compile (f : ShelfFilter) : Except CompileError RowFilter :=
  match f.condition with
  | .ok c => .ok ⟨f.fid, c⟩
  | .error fault => .error (.badFilter f.fid fault)

end ShelfFilter

end ChartQuery
