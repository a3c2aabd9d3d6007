import ChartQuery.Json.Reader
import ChartQuery.Proofs.Binary64.Finite

namespace ChartQuery.Json

/-- Every number in the value is finite as a double. -/
inductive IsFinite : Json → Prop
  | null : IsFinite null
  | bool (b : Bool) : IsFinite (bool b)
  | int {n : Int} (h : (Binary64.ofInt n).isFinite = true) : IsFinite (int n)
  | real {x : Binary64} (h : x.isFinite = true) : IsFinite (real x)
  | str (s : String) : IsFinite (str s)
  | arr {elements : List Json} (h : ∀ x ∈ elements, IsFinite x) : IsFinite (arr elements)
  | obj {members : List (String × Json)} (h : ∀ m ∈ members, IsFinite m.2) :
    IsFinite (obj members)

namespace IsFinite

theorem of_mem_arr {elements : List Json} {x : Json} (h : (Json.arr elements).IsFinite)
    (hx : x ∈ elements) : x.IsFinite := by
  cases h with
  | arr h => exact h x hx

theorem of_get? {j v : Json} {name : String} (h : j.IsFinite) (hv : j.get? name = some v) :
    v.IsFinite := by
  cases h with
  | obj h =>
    obtain ⟨before, after, rfl, _⟩ := List.lookup_eq_some_iff.1 hv
    exact h (name, v) (List.mem_append_right before List.mem_cons_self)
  | _ => cases hv

end IsFinite

theorem exists_of_mem_mapM {α : Type} {read : Json → Option α} {elements : List Json} {xs : List α}
    (h : elements.mapM read = some xs) {x : α} (hx : x ∈ xs) :
    ∃ v ∈ elements, read v = some x := by
  induction elements generalizing xs with
  | nil =>
    cases h
    cases hx
  | cons v elements ih =>
    simp only [List.mapM_cons, Option.bind_eq_bind, Option.bind_eq_some_iff] at h
    obtain ⟨y, hy, ys, hys, h⟩ := h
    cases h
    rcases List.mem_cons.1 hx with rfl | hx
    · exact ⟨v, List.mem_cons_self, hy⟩
    · obtain ⟨w, hw, hread⟩ := ih hys hx
      exact ⟨w, List.mem_cons_of_mem v hw, hread⟩

/-- From a value whose numbers are finite, only what has `P` is read. -/
def Yields {α : Type} (read : Json → Option α) (P : α → Prop) : Prop :=
  ∀ ⦃j : Json⦄ ⦃a : α⦄, j.IsFinite → read j = some a → P a

namespace Yields

variable {α : Type} {read : Json → Option α} {P : α → Prop}

theorem required (h : Yields read P) (name : String) :
    Yields (fun j => j.required name read) P := by
  intro j a hj ha
  obtain ⟨v, hv, ha⟩ := Option.bind_eq_some_iff.1 ha
  exact h (hj.of_get? hv) ha

theorem withDefault (h : Yields read P) (name : String) {value : α} (hvalue : P value) :
    Yields (fun j => j.withDefault name value read) P := by
  intro j a hj ha
  simp only [Json.withDefault] at ha
  split at ha
  · next v hv => exact h (hj.of_get? hv) ha
  · cases ha
    exact hvalue

theorem optional (h : Yields read P) (name : String) :
    Yields (fun j => j.optional name read) (fun a? => ∀ a ∈ a?, P a) := by
  intro j a? hj ha
  simp only [Json.optional] at ha
  split at ha
  · cases ha
    simp
  · cases ha
    simp
  · next v _ hv =>
    obtain ⟨a, hread, rfl⟩ := Option.map_eq_some_iff.1 ha
    simpa using h (hj.of_get? hv) hread

theorem list? (h : Yields read P) : Yields (list? read) (fun xs => ∀ x ∈ xs, P x) := by
  intro j xs hj hxs
  cases j with
  | arr elements =>
    intro x hx
    obtain ⟨v, hv, hread⟩ := exists_of_mem_mapM hxs hx
    exact h (hj.of_mem_arr hv) hread
  | _ => cases hxs

theorem pair? {β : Type} {second : Json → Option β} {Q : β → Prop} (h : Yields read P)
    (hsecond : Yields second Q) : Yields (pair? read second) (fun r => P r.1 ∧ Q r.2) := by
  intro j r hj hr
  simp only [Json.pair?] at hr
  split at hr
  · next x y =>
    simp only [Option.bind_eq_bind, Option.bind_eq_some_iff] at hr
    obtain ⟨a, ha, b, hb, hr⟩ := hr
    cases hr
    exact ⟨h (hj.of_mem_arr (by simp)) ha, hsecond (hj.of_mem_arr (by simp)) hb⟩
  · cases hr

end Yields

theorem yields_real? : Yields real? (fun x => x.isFinite = true) := by
  intro j x hj hx
  cases hj with
  | int h =>
    cases hx
    exact h
  | real h =>
    cases hx
    exact h
  | _ => cases hx

section Reader

theorem isFinite_of_ofNumeral? {negative : Bool} {whole places : List Char}
    {exponent : Option Int} {j : Json} (h : ofNumeral? negative whole places exponent = some j) :
    j.IsFinite := by
  simp only [ofNumeral?] at h
  split at h
  · next hn =>
    cases h
    have hsize : UInt64.size = 0x10000000000000000 := rfl
    exact .int (Binary64.isFinite_ofInt (by omega))
  · split at h
    · next hx =>
      cases h
      exact .real hx
    · cases h

theorem isFinite_of_number? {cs rest : List Char} {j : Json}
    (h : number? cs = some (j, rest)) : j.IsFinite := by
  simp only [number?] at h
  split at h
  · cases h
  · cases h
  · simp only [Option.bind_eq_bind, Option.bind_eq_some_iff] at h
    obtain ⟨_, _, _, _, k, hk, h⟩ := h
    cases h
    exact isFinite_of_ofNumeral? hk

theorem isFinite_of_mem_putMember {members : List (String × Json)} {v : Json}
    (h : ∀ m ∈ members, m.2.IsFinite) (hv : v.IsFinite) (name : String) :
    ∀ m ∈ putMember members name v, m.2.IsFinite := by
  rw [putMember]
  split
  · rw [List.forall_mem_map]
    intro m hm
    split
    · exact hv
    · exact h m hm
  · rw [List.forall_mem_append]
    exact ⟨h, by simpa using hv⟩

-- By induction on the fuel, in step with the three readers. Members are collected on the way, so
-- there the invariant is that those read so far are finite.
mutual

theorem isFinite_of_value? : ∀ (fuel : Nat) {cs rest : List Char} {j : Json},
    value? fuel cs = some (j, rest) → j.IsFinite
  | 0, _, _, _, h => by cases h
  | fuel + 1, cs, rest, j, h => by
    rw [value?] at h
    split at h
    · cases h
      exact .null
    · cases h
      exact .bool true
    · cases h
      exact .bool false
    · obtain ⟨r, hr, h⟩ := Option.map_eq_some_iff.1 h
      cases h
      exact .str r.1
    · split at h
      · cases h
        exact .arr (fun _ hx => absurd hx List.not_mem_nil)
      · obtain ⟨r, hr, h⟩ := Option.map_eq_some_iff.1 h
        cases h
        exact .arr (isFinite_of_mem_elements? fuel hr)
    · split at h
      · cases h
        exact .obj (fun _ hx => absurd hx List.not_mem_nil)
      · obtain ⟨r, hr, h⟩ := Option.map_eq_some_iff.1 h
        cases h
        exact .obj (isFinite_of_mem_members? fuel (fun _ hx => absurd hx List.not_mem_nil) hr)
    · exact isFinite_of_number? h

theorem isFinite_of_mem_elements? : ∀ (fuel : Nat) {cs rest : List Char} {xs : List Json},
    elements? fuel cs = some (xs, rest) → ∀ x ∈ xs, x.IsFinite
  | 0, _, _, _, h => by cases h
  | fuel + 1, cs, rest, xs, h => by
    simp only [elements?, Option.bind_eq_bind, Option.bind_eq_some_iff] at h
    obtain ⟨⟨x, cs⟩, hx, h⟩ := h
    have hfinite := isFinite_of_value? fuel hx
    split at h
    · cases h
      simpa using hfinite
    · obtain ⟨⟨xs, cs⟩, hxs, h⟩ := Option.bind_eq_some_iff.1 h
      cases h
      exact List.forall_mem_cons.2 ⟨hfinite, isFinite_of_mem_elements? fuel hxs⟩
    · cases h

theorem isFinite_of_mem_members? : ∀ (fuel : Nat) {done : List (String × Json)}
    {cs rest : List Char} {ms : List (String × Json)}, (∀ m ∈ done, m.2.IsFinite) →
    members? fuel done cs = some (ms, rest) → ∀ m ∈ ms, m.2.IsFinite
  | 0, _, _, _, _, _, h => by cases h
  | fuel + 1, done, cs, rest, ms, hdone, h => by
    rw [members?] at h
    split at h
    · simp only [Option.bind_eq_bind, Option.bind_eq_some_iff] at h
      obtain ⟨⟨name, cs⟩, hname, h⟩ := h
      split at h
      · obtain ⟨⟨v, cs⟩, hv, h⟩ := Option.bind_eq_some_iff.1 h
        have hput := isFinite_of_mem_putMember hdone (isFinite_of_value? fuel hv)
        split at h
        · cases h
          exact hput _
        · exact isFinite_of_mem_members? fuel (hput _) h
        · cases h
      · cases h
    · cases h

end

theorem isFinite_of_read? {text : String} {j : Json} (h : read? text = some j) : j.IsFinite := by
  simp only [read?, Option.bind_eq_bind, Option.bind_eq_some_iff] at h
  obtain ⟨⟨k, rest⟩, hk, h⟩ := h
  split at h
  · cases h
    exact isFinite_of_value? _ hk
  · cases h

end Reader

end ChartQuery.Json
