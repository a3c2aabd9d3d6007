namespace ChartQuery

/-- An IEEE 754 double, held as its 64 bits. -/
structure Binary64 where
  bits : UInt64
  deriving DecidableEq, Repr, Inhabited

namespace Binary64

def signBit : Nat := 0x8000000000000000

/-- The lowest bit of the exponent, and the hidden bit of the significand of a normal number. -/
def hiddenBit : Nat := 0x10000000000000

/-- How often the least positive double goes into one. -/
def scale : Nat := Nat.pow 2 1074

def negative (x : Binary64) : Bool := decide (signBit ≤ x.bits.toNat)

/-- The bits below the sign. -/
def magnitude (x : Binary64) : Nat := x.bits.toNat % signBit

def exponent (x : Binary64) : Nat := x.magnitude / hiddenBit

def fraction (x : Binary64) : Nat := x.magnitude % hiddenBit

def isFinite (x : Binary64) : Bool := x.exponent != 2047

def isNaN (x : Binary64) : Bool := x.exponent == 2047 && x.fraction != 0

def significand (x : Binary64) : Nat :=
  if x.exponent = 0 then x.fraction else hiddenBit + x.fraction

/-- A finite double is `scaled / scale`; both zeros have `scaled = 0`. -/
def scaled (x : Binary64) : Int :=
  let m : Nat := x.significand * Nat.pow 2 (x.exponent - 1)
  if x.negative then -m else m

def ofMagnitude (negative : Bool) (magnitude : Nat) : Binary64 :=
  ⟨UInt64.ofNat (if negative then signBit + magnitude else magnitude)⟩

def zero (negative : Bool) : Binary64 := ofMagnitude negative 0

def infinity (negative : Bool) : Binary64 := ofMagnitude negative (2047 * hiddenBit)

def nan (negative : Bool) : Binary64 := ofMagnitude negative (2047 * hiddenBit + hiddenBit / 2)

/-- Rank of a number that is no NaN: it grows with the value and is zero for both zeros. -/
def rank (x : Binary64) : Int :=
  if x.negative then -(x.magnitude : Int) else x.magnitude

theorem magnitude_lt (x : Binary64) : x.magnitude < signBit := Nat.mod_lt _ (by decide)

theorem rank_lt (x : Binary64) : x.rank < signBit := by
  have := x.magnitude_lt
  unfold rank
  split <;> omega

/-- Numeric equality: a NaN differs from everything, the two zeros are equal. -/
def numEq (x y : Binary64) : Bool := !x.isNaN && !y.isNaN && x.rank == y.rank

def truncate (x : Binary64) : Int := x.scaled.tdiv scale

/-- The integer part, held within the signed 64-bit range. -/
def toInt64 (x : Binary64) : Int64 :=
  Int64.ofInt (max (-signBit) (min (signBit - 1) x.truncate))

/-- How a number that is not finite is written; messages show no others. -/
def describe (x : Binary64) : String :=
  if x.isNaN then "NaN" else if x.negative then "-inf" else "inf"

@[simp] theorem numEq_comm (x y : Binary64) : x.numEq y = y.numEq x := by
  unfold numEq
  cases x.isNaN <;> cases y.isNaN <;> simp [BEq.comm]

end Binary64

end ChartQuery
