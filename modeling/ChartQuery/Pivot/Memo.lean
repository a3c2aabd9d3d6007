namespace ChartQuery

/-- Values by key, in the order in which the keys first came. -/
structure Memo (κ ν : Type) where
  entries : List (κ × ν)
  deriving Repr

namespace Memo

variable {κ ν : Type} [BEq κ]

def empty : Memo κ ν := ⟨[]⟩

def keys (m : Memo κ ν) : List κ := m.entries.map Prod.fst

def get? (m : Memo κ ν) (k : κ) : Option ν := m.entries.lookup k

def contains (m : Memo κ ν) (k : κ) : Bool := (m.get? k).isSome

def size (m : Memo κ ν) : Nat := m.entries.length

def isEmpty (m : Memo κ ν) : Bool := m.entries.isEmpty

def put (k : κ) (v : ν) : List (κ × ν) → List (κ × ν)
  | [] => [(k, v)]
  | e :: entries => if e.1 == k then (k, v) :: entries else e :: put k v entries

/-- Sets the value of a key, which keeps its place if it is known. -/
def insert (m : Memo κ ν) (k : κ) (v : ν) : Memo κ ν := ⟨put k v m.entries⟩

theorem lookup_put [LawfulBEq κ] (k l : κ) (v : ν) (entries : List (κ × ν)) :
    (put k v entries).lookup l = if l == k then some v else entries.lookup l := by
  induction entries with
  | nil => cases h : l == k <;> simp [put, List.lookup_cons, h]
  | cons e entries ih =>
    obtain ⟨j, w⟩ := e
    by_cases hj : j = k
    · subst hj
      cases h : l == j <;> simp [put, List.lookup_cons, h]
    · have hb : (j == k) = false := by simpa using hj
      simp only [put, hb, Bool.false_eq_true, if_false, List.lookup_cons, ih]
      cases h : l == j
      · rfl
      · obtain rfl : l = j := by simpa using h
        simp [hj]

@[simp] theorem get?_empty (k : κ) : (empty : Memo κ ν).get? k = none := rfl

theorem get?_insert [LawfulBEq κ] (m : Memo κ ν) (k l : κ) (v : ν) :
    (m.insert k v).get? l = if l == k then some v else m.get? l :=
  lookup_put k l v m.entries

end Memo

end ChartQuery
