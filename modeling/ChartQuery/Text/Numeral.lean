namespace ChartQuery.Text

/-- The digits `0` to `9` that a text starts with, and the rest of it. -/
def digitRun (cs : List Char) : List Char × List Char :=
  (cs.takeWhile Char.isDigit, cs.dropWhile Char.isDigit)

def digitValue (c : Char) : Nat := c.toNat - '0'.toNat

/-- The number that decimal digits write. -/
def natOfDigits (ds : List Char) : Nat := ds.foldl (fun n c => 10 * n + digitValue c) 0

/-- A sign that may be left out: `true` for a minus. -/
def sign : List Char → Bool × List Char
  | '-' :: cs => (true, cs)
  | '+' :: cs => (false, cs)
  | cs => (false, cs)

def signed (negative : Bool) (n : Nat) : Int := if negative then -n else n

/-- Reads a text that is a decimal integer throughout. -/
def readInt? (cs : List Char) : Option Int :=
  let (negative, cs) := sign cs
  match digitRun cs with
  | ([], _) => none
  | (ds, []) => some (signed negative (natOfDigits ds))
  | (_, _ :: _) => none

/-- Reads a decimal integer of the signed 64-bit range. -/
def readInt64? (cs : List Char) : Option Int64 :=
  (readInt? cs).bind fun n =>
    if -0x8000000000000000 ≤ n ∧ n < 0x8000000000000000 then some (Int64.ofInt n) else none

end ChartQuery.Text
