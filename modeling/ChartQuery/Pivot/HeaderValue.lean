import ChartQuery.Literal

namespace ChartQuery

namespace Binary64

/-- Equality that takes all NaNs for one value. -/
def same (x y : Binary64) : Bool := (x.isNaN && y.isNaN) || x.numEq y

/-- Place of a number among all: NaN stands after the infinities. -/
def place (x : Binary64) : Int := if x.isNaN then signBit else x.rank

theorem same_iff (x y : Binary64) : x.same y = true ↔ x.place = y.place := by
  have hx := x.rank_lt
  have hy := y.rank_lt
  unfold same numEq place
  cases x.isNaN <;> cases y.isNaN <;> simp <;> omega

end Binary64

/-- A value of a dimension, which is compared as rows are grouped and not as literals are. -/
inductive HeaderValue where
  | null
  | number (x : Binary64)
  | text (s : String)
  | boolean (b : Bool)
  deriving Repr, Inhabited

namespace HeaderValue

def ofLiteral : Literal → HeaderValue
  | .null => null
  | .bool b => boolean b
  | .number x => number x
  | .text s => text s

def toLiteral : HeaderValue → Literal
  | null => .null
  | number x => .number x
  | text s => .text s
  | boolean b => .bool b

def eqv : HeaderValue → HeaderValue → Bool
  | null, null => true
  | number x, number y => x.same y
  | text s, text t => s == t
  | boolean a, boolean b => a == b
  | _, _ => false

instance : BEq HeaderValue := ⟨eqv⟩

theorem beq_def (v w : HeaderValue) : (v == w) = v.eqv w := rfl

instance : EquivBEq HeaderValue where
  rfl {v} := by cases v <;> simp [beq_def, eqv, Binary64.same_iff]
  symm {v w} h := by
    cases v <;> cases w <;> simp_all [beq_def, eqv, Binary64.same_iff]
  trans {u v w} h k := by
    cases u <;> cases v <;> cases w <;> simp_all [beq_def, eqv, Binary64.same_iff]

/-- Numbers are hashed by their places. -/
instance : Hashable HeaderValue where
  hash
    | null => 0
    | number x => mixHash 1 (hash x.place)
    | text s => mixHash 2 (hash s)
    | boolean b => mixHash 3 (hash b)

instance : LawfulHashable HeaderValue where
  hash_eq v w h := by
    cases v <;> cases w <;> simp_all [beq_def, eqv, Binary64.same_iff, hash]

instance : EquivBEq (List HeaderValue) where
  symm {vs ws} h := by
    induction vs generalizing ws with
    | nil => cases ws <;> simp_all
    | cons v vs ih =>
      cases ws with
      | nil => simp at h
      | cons w ws =>
        simp only [List.cons_beq_cons, Bool.and_eq_true] at h ⊢
        exact ⟨BEq.symm h.1, ih h.2⟩
  trans {us vs ws} h k := by
    induction us generalizing vs ws with
    | nil => cases vs <;> simp_all
    | cons u us ih =>
      cases vs with
      | nil => simp at h
      | cons v vs =>
        cases ws with
        | nil => simp at k
        | cons w ws =>
          simp only [List.cons_beq_cons, Bool.and_eq_true] at h k ⊢
          exact ⟨BEq.trans h.1 k.1, ih h.2 k.2⟩

theorem foldl_hash_eq {vs ws : List HeaderValue} (h : vs == ws) (seed : UInt64) :
    vs.foldl (fun r v => mixHash r (hash v)) seed =
      ws.foldl (fun r v => mixHash r (hash v)) seed := by
  induction vs generalizing ws seed with
  | nil => cases ws <;> simp_all
  | cons v vs ih =>
    cases ws with
    | nil => simp at h
    | cons w ws =>
      simp only [List.cons_beq_cons, Bool.and_eq_true] at h
      simp only [List.foldl_cons, hash_eq h.1]
      exact ih h.2 _

instance : LawfulHashable (List HeaderValue) where
  hash_eq _ _ h := foldl_hash_eq h 7

/-- Null, then numbers, texts by their characters, and the two truth values. -/
def cmp : HeaderValue → HeaderValue → Ordering
  | null, null => .eq
  | null, _ => .lt
  | _, null => .gt
  | number x, number y => compare x.place y.place
  | number _, _ => .lt
  | _, number _ => .gt
  | text s, text t => compare s t
  | text _, _ => .lt
  | _, text _ => .gt
  | boolean a, boolean b => compare a.toNat b.toNat

/-- Puts a value into an ascending list; of equal values the one already there stays. -/
def insert (v : HeaderValue) : List HeaderValue → List HeaderValue
  | [] => [v]
  | w :: ws =>
    match v.cmp w with
    | .lt => v :: w :: ws
    | .eq => w :: ws
    | .gt => w :: insert v ws

/-- The different values in ascending order; of equal ones the first counts. -/
def ascending (vs : List HeaderValue) : List HeaderValue := vs.foldl (fun ws v => insert v ws) []

/-- The list in ascending order, equal values in their given order. -/
def sorted (vs : List HeaderValue) : List HeaderValue := vs.mergeSort fun v w => v.cmp w != .gt

end HeaderValue

end ChartQuery
