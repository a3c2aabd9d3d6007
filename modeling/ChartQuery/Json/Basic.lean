import ChartQuery.Binary64.Rounding

namespace ChartQuery

/-- A JSON value. A number without point and exponent that fits 64 bits, signed or unsigned, is an
`int`; every other number is the double nearest to it. -/
inductive Json where
  | null
  | bool (b : Bool)
  | int (n : Int)
  | real (x : Binary64)
  | str (s : String)
  | arr (elements : List Json)
  | obj (members : List (String × Json))
  deriving Inhabited

/-- How a value is reached: on its own, or inside an object that is held back until its tag or its
own members are known. A held value is read more loosely where words and tags are concerned, but
its names are texts only, so nothing that is keyed by numbers can be read from it. -/
inductive Passage where
  | direct
  | held
  deriving DecidableEq, Repr

namespace Json

def get? : Json → String → Option Json
  | obj members, name => members.lookup name
  | _, _ => none

theorem sizeOf_lookup_lt {members : List (String × Json)} {name : String} {v : Json}
    (h : members.lookup name = some v) : sizeOf v < sizeOf members := by
  induction members with
  | nil => simp at h
  | cons m members ih =>
    obtain ⟨k, w⟩ := m
    simp only [List.lookup_cons] at h
    split at h
    · cases h
      simp
      omega
    · have := ih h
      simp
      omega

theorem sizeOf_get?_lt {j v : Json} {name : String} (h : j.get? name = some v) :
    sizeOf v < sizeOf j := by
  cases j <;> simp only [get?, reduceCtorEq] at h
  have := sizeOf_lookup_lt h
  simp
  omega

def isObj : Json → Bool
  | obj _ => true
  | _ => false

def bool? : Json → Option Bool
  | bool b => some b
  | _ => none

def str? : Json → Option String
  | str s => some s
  | _ => none

def real? : Json → Option Binary64
  | int n => some (.ofInt n)
  | real x => some x
  | _ => none

/-- An integer of the given range, its upper bound excluded. -/
def intWithin? (lo hi : Int) : Json → Option Int
  | int n => if lo ≤ n ∧ n < hi then some n else none
  | _ => none

def int64? (j : Json) : Option Int64 :=
  (j.intWithin? (-0x8000000000000000) 0x8000000000000000).map Int64.ofInt

def uint32? (j : Json) : Option UInt32 :=
  (j.intWithin? 0 UInt32.size).map fun n => .ofNat n.toNat

def uint64? (j : Json) : Option UInt64 :=
  (j.intWithin? 0 UInt64.size).map fun n => .ofNat n.toNat

def list? {α : Type} (read : Json → Option α) : Json → Option (List α)
  | arr elements => elements.mapM read
  | _ => none

def pair? {α β : Type} (first : Json → Option α) (second : Json → Option β) :
    Json → Option (α × β)
  | arr [x, y] => do return (← first x, ← second y)
  | _ => none

/-- A word, on its own or as the only name of an object whose member is null; in a held value that
member may be an empty object too. -/
def word? : Passage → Json → Option String
  | _, str s => some s
  | _, obj [(s, null)] => some s
  | .held, obj [(s, obj [])] => some s
  | _, _ => none

/-- One of several values, each written as a word of its own. -/
def oneOf? {α : Type} (values : List α) (word : α → String) (passage : Passage) (j : Json) :
    Option α :=
  (word? passage j).bind fun s => values.find? (word · == s)

def required {α : Type} (j : Json) (name : String) (read : Json → Option α) : Option α :=
  (j.get? name).bind read

def withDefault {α : Type} (j : Json) (name : String) (value : α) (read : Json → Option α) :
    Option α :=
  match j.get? name with
  | some v => read v
  | none => some value

def optional {α : Type} (j : Json) (name : String) (read : Json → Option α) :
    Option (Option α) :=
  match j.get? name with
  | some null | none => some none
  | some v => (read v).map some

/-- The members of a record, those without a value left out. -/
def record (members : List (String × Option Json)) : Json :=
  obj (members.filterMap fun m => m.2.map (m.1, ·))

/-- A finite number; no other double has a written form. -/
def ofReal (x : Binary64) : Json := if x.isFinite then real x else null

def strings (xs : List String) : Json := arr (xs.map str)

end Json

end ChartQuery
