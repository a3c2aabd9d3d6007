namespace ChartQuery.Text

/-- The 25 characters with the property `White_Space`. -/
def isBlank (c : Char) : Bool :=
  let n := c.toNat
  (0x09 ≤ n && n ≤ 0x0d) || n == 0x20 || n == 0x85 || n == 0xa0 || n == 0x1680
    || (0x2000 ≤ n && n ≤ 0x200a) || n == 0x2028 || n == 0x2029 || n == 0x202f || n == 0x205f
    || n == 0x3000

def trimStart (cs : List Char) : List Char := cs.dropWhile isBlank

def trim (cs : List Char) : List Char := (trimStart (trimStart cs).reverse).reverse

theorem trimStart_cons (c : Char) (cs : List Char) :
    trimStart (c :: cs) = if isBlank c then trimStart cs else c :: cs := by
  simp [trimStart, List.dropWhile_cons]

end ChartQuery.Text
