import ChartQuery.Expression.Basic

namespace ChartQuery

/-- What a field is used for when nothing else is said. -/
inductive Role where
  | dimension
  | measure
  deriving DecidableEq, Repr

structure Field where
  /-- The key of the field in its dataset. -/
  fid : String
  name : String
  role : Role
  /-- The aggregation of the field in an aggregated view. -/
  agg : Option String
  computed : Bool
  expression : Option Expression

namespace Field

def new (fid : String) (role : Role) : Field := ⟨fid, fid, role, none, false, none⟩

def withAgg (f : Field) (agg : String) : Field := { f with agg := some agg }

def withoutAgg (f : Field) : Field := { f with agg := none }

def dimension (fid : String) : Field := new fid .dimension

def measure (fid agg : String) : Field := (new fid .measure).withAgg agg

def ofExpression (fid : String) (role : Role) (e : Expression) : Field :=
  { new fid role with computed := true, expression := some e }

def isDimension (f : Field) : Bool := f.role == .dimension

def isMeasure (f : Field) : Bool := f.role == .measure

end Field

/-- A filter rule as the user left it: end points may be numbers, texts or anything else. -/
inductive ShelfRule where
  | oneOf (values : List Literal)
  | range (lo hi : Literal)
  | temporalRange (lo hi : Literal)
  deriving DecidableEq, Repr

/-- A field on the filter shelf. It has no rule until the user is done with it. -/
structure ShelfFilter where
  field : Field
  rule : Option ShelfRule

namespace ShelfFilter

def fid (f : ShelfFilter) : String := f.field.fid

/-- Such a filter waits until its field has been computed. -/
def isComputed (f : ShelfFilter) : Bool := f.field.computed

end ShelfFilter

end ChartQuery
