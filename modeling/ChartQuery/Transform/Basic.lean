import ChartQuery.Expression.Basic

namespace ChartQuery

/-- A computed field as a step of a plan evaluates it. -/
structure Transform where
  key : String
  expression : Expression

/-- The fields that a transform reads. -/
def Transform.references (t : Transform) : List String := t.expression.references

/-- What happens to transforms that read each other in a circle. -/
inductive CyclePolicy where
  | reject
  | keep
  deriving DecidableEq, Repr

end ChartQuery
