import ChartQuery.Distinct
import ChartQuery.Literal

namespace ChartQuery

/-- One step down an axis, to a value of a dimension. -/
structure Segment where
  key : String
  value : Literal
  deriving DecidableEq, Repr

def Segment.eqv (a b : Segment) : Bool := a.key == b.key && a.value.eqv b.value

abbrev Path := List Segment

/-- Equality of paths by the values of their segments. -/
def Path.eqv : Path → Path → Bool
  | [], [] => true
  | a :: p, b :: q => a.eqv b && Path.eqv p q
  | _, _ => false

/-- The collapsed headers by their ids, in the order in which they were collapsed. -/
structure Collapsed where
  entries : List (String × Path)
  deriving DecidableEq, Repr

namespace Collapsed

def empty : Collapsed := ⟨[]⟩

/-- Of several entries with one id the first one counts. -/
def ofEntries (entries : List (String × Path)) : Collapsed := ⟨distinctBy Prod.fst entries⟩

def size (c : Collapsed) : Nat := c.entries.length

def isEmpty (c : Collapsed) : Bool := c.entries.isEmpty

def contains (c : Collapsed) (path : Path) : Bool := c.entries.any fun e => Path.eqv e.2 path

/-- True if a collapsed path ends in the dimension. -/
def endsIn (c : Collapsed) (fid : String) : Bool :=
  c.entries.any fun e => e.2.getLast?.any (·.key == fid)

end Collapsed

end ChartQuery
