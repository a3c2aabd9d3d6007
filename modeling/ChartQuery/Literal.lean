import ChartQuery.Binary64.Decimal
import ChartQuery.Json.Basic
import ChartQuery.Text.Blank
import ChartQuery.Text.Quoted

namespace ChartQuery

/-- A scalar value in a filter, in a column of a row or in a header. -/
inductive Literal where
  | null
  | bool (b : Bool)
  | number (x : Binary64)
  | text (s : String)
  deriving DecidableEq, Repr, Inhabited

namespace Literal

/-- Equality of values: numbers compare as numbers do, so a NaN differs from itself. -/
def eqv : Literal → Literal → Bool
  | null, null => true
  | bool a, bool b => a == b
  | number x, number y => x.numEq y
  | text s, text t => s == t
  | _, _ => false

/-- The numeric view: a text counts if it is a number between white space. -/
def toNumber? : Literal → Option Binary64
  | null => none
  | bool b => some (.ofInt (if b then 1 else 0))
  | number x => some x
  | text s => Text.readBinary64? (Text.trim s.toList)

/-- The value with its kind, as messages show it. -/
def describe : Literal → String
  | null => "Null"
  | bool b => if b then "Bool(true)" else "Bool(false)"
  | number x => "Number(" ++ x.describe ++ ")"
  | text s => "Text(" ++ Text.quoted s ++ ")"

def toJson : Literal → Json
  | null => .null
  | bool b => .bool b
  | number x => .ofReal x
  | text s => .str s

def ofJson? : Json → Option Literal
  | .null => some null
  | .bool b => some (bool b)
  | .int n => some (number (.ofInt n))
  | .real x => some (number x)
  | .str s => some (text s)
  | _ => none

end Literal

end ChartQuery
