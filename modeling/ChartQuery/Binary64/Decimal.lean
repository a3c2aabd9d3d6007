import ChartQuery.Binary64.Rounding
import ChartQuery.Text.Numeral

namespace ChartQuery

/-- The number `± digits * 10 ^ exponent`. -/
structure Decimal where
  negative : Bool
  digits : Nat
  exponent : Int
  deriving DecidableEq, Repr

namespace Decimal

/-- The nearest double. Exponents beyond any double are settled by their size alone: a number of
at least `10 ^ 400` is infinite, one below `10 ^ (-399)` rounds to zero. -/
def toBinary64 (d : Decimal) : Binary64 :=
  if d.digits = 0 then .zero d.negative
  else if 400 < d.exponent then .infinity d.negative
  else if d.exponent + d.digits.log2 < -400 then .zero d.negative
  else if 0 ≤ d.exponent then .ofRatio d.negative (d.digits * Nat.pow 10 d.exponent.toNat) 1
  else .ofRatio d.negative d.digits (Nat.pow 10 (-d.exponent).toNat)

def ofDigits (negative : Bool) (whole places : List Char) (exponent : Int) : Decimal :=
  ⟨negative, Text.natOfDigits (whole ++ places), exponent - places.length⟩

end Decimal

namespace Text

def fractionRun : List Char → List Char × List Char
  | '.' :: cs => digitRun cs
  | cs => ([], cs)

/-- The power of ten that ends a numeral; `none` if its digits are missing. -/
def readExponent? : List Char → Option Int
  | [] => some 0
  | c :: cs => if c = 'e' ∨ c = 'E' then readInt? cs else none

/-- An unsigned numeral: digits with at most one point among or beside them, then an exponent. -/
def readDecimal? (negative : Bool) (cs : List Char) : Option Decimal :=
  let (whole, rest) := digitRun cs
  let (places, rest) := fractionRun rest
  if whole = [] ∧ places = [] then none
  else (readExponent? rest).map (Decimal.ofDigits negative whole places)

/-- Reads a text that is a number throughout: a numeral, or `inf`, `infinity` or `nan` in either
case, with a sign that may be left out. -/
def readBinary64? (cs : List Char) : Option Binary64 :=
  let (negative, cs) := sign cs
  let word := String.ofList (cs.map Char.toLower)
  if word = "inf" ∨ word = "infinity" then some (.infinity negative)
  else if word = "nan" then some (.nan negative)
  else (readDecimal? negative cs).map Decimal.toBinary64

end Text

end ChartQuery
