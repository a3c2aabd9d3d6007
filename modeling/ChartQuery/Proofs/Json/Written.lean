import ChartQuery.Json.Basic
import Mathlib.Tactic.Common

namespace ChartQuery.Json

section List

variable {α : Type} {read : Json → Option α}

theorem mapM_eq_some_cons {β : Type} {f : β → Option α} {x : β} {xs : List β} {y : α}
    {ys : List α} :
    (x :: xs).mapM f = some (y :: ys) ↔ f x = some y ∧ xs.mapM f = some ys := by
  cases hx : f x with
  | none => simp [List.mapM_cons, hx]
  | some z =>
    cases hxs : xs.mapM f with
    | none => simp [List.mapM_cons, hx, hxs]
    | some zs => simp [List.mapM_cons, hx, hxs]

theorem list?_map_eq_some_iff {write : α → Json} {xs : List α} :
    list? read (arr (xs.map write)) = some xs ↔ ∀ x ∈ xs, read (write x) = some x := by
  rw [list?]
  induction xs with
  | nil => simp
  | cons x xs ih => rw [List.map_cons, mapM_eq_some_cons, ih, List.forall_mem_cons]

theorem list?_map (write : α → Json) (h : ∀ x, read (write x) = some x) (xs : List α) :
    list? read (arr (xs.map write)) = some xs :=
  list?_map_eq_some_iff.2 fun x _ => h x

end List

section Member

variable {α : Type} {read : Json → Option α} {name : String} {v : Json}
  {members : List (String × Json)}

theorem get?_cons (k : String) : (obj ((k, v) :: members)).get? name =
    if name = k then some v else (obj members).get? name := by
  rw [get?, List.lookup_cons, get?]
  by_cases h : name = k
  · rw [if_pos h, beq_iff_eq.2 h]
  · rw [if_neg h, beq_eq_false_iff_ne.2 h]

@[simp] theorem required_cons (k : String) : (obj ((k, v) :: members)).required name read =
    if name = k then read v else (obj members).required name read := by
  rw [required, required, get?_cons]
  by_cases h : name = k
  · rw [if_pos h, if_pos h, Option.bind_some]
  · rw [if_neg h, if_neg h]

@[simp] theorem withDefault_cons (k : String) (value : α) :
    (obj ((k, v) :: members)).withDefault name value read =
      if name = k then read v else (obj members).withDefault name value read := by
  rw [withDefault, withDefault, get?_cons]
  by_cases h : name = k
  · rw [if_pos h, if_pos h]
  · rw [if_neg h, if_neg h]

@[simp] theorem get?_record_nil (name : String) : (record []).get? name = none := rfl

@[simp] theorem get?_record_cons (k name : String) (value : Option Json)
    (rest : List (String × Option Json)) : (record ((k, value) :: rest)).get? name =
      if name = k then value.or ((record rest).get? name) else (record rest).get? name := by
  cases value with
  | none => simp [record]
  | some v => simp only [record, List.filterMap_cons, Option.map_some, get?_cons, Option.some_or]

/-- A member that is written only if there is a value: where it is missing, none is read. -/
theorem optional_eq_some_iff {write : α → Json} {j : Json} {x : Option α}
    (h : j.get? name = x.map write) (hnull : ∀ a, write a ≠ null) :
    j.optional name read = some x ↔ ∀ a ∈ x, read (write a) = some a := by
  rw [optional, h]
  cases x with
  | none => simp
  | some a =>
    cases hw : write a with
    | null => exact absurd hw (hnull a)
    | _ => simp [hw]

end Member

theorem list?_strings (xs : List String) : list? str? (strings xs) = some xs :=
  list?_map str (fun _ => rfl) xs

theorem real?_ofReal_eq_some_iff {x : Binary64} :
    real? (ofReal x) = some x ↔ x.isFinite = true := by
  rw [ofReal]
  cases x.isFinite with
  | true => simp [real?]
  | false => simp [real?]

theorem int64?_toInt (n : Int64) : int64? (int n.toInt) = some n := by
  have hlo := n.le_toInt
  have hhi := n.toInt_lt
  have hin : -9223372036854775808 ≤ n.toInt ∧ n.toInt < 9223372036854775808 := by omega
  simp [int64?, intWithin?, hin]

theorem uint32?_toNat (n : UInt32) : uint32? (int n.toNat) = some n := by
  have hlt := n.toNat_lt
  have : (n.toNat : Int) < 4294967296 := by omega
  simp [uint32?, intWithin?, UInt32.size, this]

theorem uint64?_toNat (n : UInt64) : uint64? (int n.toNat) = some n := by
  have hlt := n.toNat_lt
  have : (n.toNat : Int) < 18446744073709551616 := by omega
  simp [uint64?, intWithin?, UInt64.size, this]

end ChartQuery.Json
