import ChartQuery.Binary64.Basic

namespace ChartQuery

/-- The integer nearest to `n / d`; of two equally near ones the even one. -/
def roundHalfEven (n d : Nat) : Nat :=
  let q := n / d
  let r := n % d
  if 2 * r < d ∨ (2 * r = d ∧ q % 2 = 0) then q else q + 1

namespace Binary64

/-- Exponent `p` of the unit `2 ^ p / scale` in which `n / d` is rounded: the finest unit in which
its integer part has at most 53 bits. -/
def unitExponent (n d : Nat) : Nat :=
  let p := n.log2 + 1021 - d.log2
  if n * scale / (d * Nat.pow 2 p) < 2 * hiddenBit then p else p + 1

/-- Bits below the sign of the double nearest to `n / d`. A significand that rounds up to one more
bit carries into the exponent, and what is too large becomes the infinity. -/
def nearestMagnitude (n d : Nat) : Nat :=
  let p := unitExponent n d
  min (2047 * hiddenBit) (p * hiddenBit + roundHalfEven (n * scale) (d * Nat.pow 2 p))

/-- The double nearest to `± n / d`, for a positive `d`. -/
def ofRatio (negative : Bool) (n d : Nat) : Binary64 :=
  if n = 0 then zero negative else ofMagnitude negative (nearestMagnitude n d)

def ofInt (n : Int) : Binary64 := ofRatio (decide (n < 0)) n.natAbs 1

end Binary64

end ChartQuery
