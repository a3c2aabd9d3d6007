import ChartQuery.Pivot.Basic
import ChartQuery.Pivot.Memo
import ChartQuery.Pivot.Row

namespace ChartQuery

/-- All that fetched rows depend on besides their grouping. -/
structure Signature where
  rows : List String
  columns : List String
  measures : List Measure
  aggregated : Bool
  version : UInt64
  deriving DecidableEq, Repr

def Signature.of (p : Pivot) (version : UInt64) : Signature :=
  ⟨p.rows, p.columns, p.measures, p.options.aggregated, version⟩

/-- Only rows that were fetched without a failure are kept. -/
structure Cache where
  signature : Option Signature
  entries : Memo Grouping (List Row)
  deriving Repr

namespace Cache

def empty : Cache := ⟨none, .empty⟩

def isValidFor (c : Cache) (s : Signature) : Bool := c.signature == some s

/-- Makes the cache valid for a signature. The entries of another one are dropped. -/
def validate (c : Cache) (s : Signature) : Cache :=
  if c.isValidFor s then c else ⟨some s, .empty⟩

/-- The number of entries that `validate` drops. -/
def dropped (c : Cache) (s : Signature) : Nat := if c.isValidFor s then 0 else c.entries.size

def get? (c : Cache) (g : Grouping) : Option (List Row) := c.entries.get? g

def contains (c : Cache) (g : Grouping) : Bool := c.entries.contains g

def insert (c : Cache) (g : Grouping) (rows : List Row) : Cache :=
  { c with entries := c.entries.insert g rows }

def clear (_ : Cache) : Cache := empty

def size (c : Cache) : Nat := c.entries.size

def isEmpty (c : Cache) : Bool := c.entries.isEmpty

end Cache

end ChartQuery
