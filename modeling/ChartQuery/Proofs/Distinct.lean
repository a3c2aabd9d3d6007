import ChartQuery.Distinct
import Mathlib.Data.List.Basic
import Mathlib.Data.List.Induction

namespace ChartQuery

theorem distinctBy_sublist {α κ : Type} [BEq κ] (key : α → κ) (xs : List α) :
    (distinctBy key xs).Sublist xs := by
  induction xs with
  | nil => exact .slnil
  | cons x xs ih => exact (List.filter_sublist.trans ih).cons_cons x

/-- An element stays just if it is the first one with its key. -/
theorem mem_distinctBy_iff {α κ : Type} [BEq κ] [LawfulBEq κ] {key : α → κ} {xs : List α} {x : α} :
    x ∈ distinctBy key xs ↔ xs.find? (fun y => key y == key x) = some x := by
  induction xs with
  | nil => simp [distinctBy]
  | cons y ys ih =>
    rw [distinctBy, List.mem_cons, List.mem_filter, ih, List.find?_cons]
    cases hk : key y == key x with
    | true =>
      rw [bne, BEq.comm, hk]
      simp [eq_comm]
    | false =>
      have hne : x ≠ y := by
        rintro rfl
        simp at hk
      rw [bne, BEq.comm, hk]
      simp [hne]

/-- The keys that are there stay the same. -/
theorem any_distinctBy {α κ : Type} [BEq κ] [LawfulBEq κ] (key : α → κ) (xs : List α) (k : κ) :
    (distinctBy key xs).any (key · == k) = xs.any (key · == k) := by
  rw [Bool.eq_iff_iff, List.any_eq_true, List.any_eq_true]
  constructor
  · intro h
    obtain ⟨x, hx, hk⟩ := h
    exact ⟨x, mem_of_mem_distinctBy hx, hk⟩
  · intro h
    obtain ⟨x, hx, hk⟩ := h
    have hkept : ∃ y ∈ distinctBy key xs, key y = key x := exists_mem_distinctBy hx
    obtain ⟨y, hy, hyx⟩ := hkept
    exact ⟨y, hy, hyx ▸ hk⟩

theorem distinctBy_eq_self_iff {α κ : Type} [BEq κ] [LawfulBEq κ] {key : α → κ} {xs : List α} :
    distinctBy key xs = xs ↔ (xs.map key).Nodup := by
  constructor
  · intro h
    have hkeys : ((distinctBy key xs).map key).Nodup := distinctBy_keys key xs
    rwa [h] at hkeys
  · intro h
    induction xs with
    | nil => rfl
    | cons x xs ih =>
      rw [List.map_cons, List.nodup_cons] at h
      have hfresh : ∀ y ∈ xs, (key y != key x) = true := by
        intro y hy
        exact bne_iff_ne.2 fun hk => h.1 (List.mem_map.2 ⟨y, hy, hk⟩)
      rw [distinctBy, ih h.2, List.filter_eq_self.2 hfresh]

/-- The second list has, for each key of the first one, the element that comes first with it, in
order. -/
inductive Firsts {α κ : Type} (key : α → κ) : List α → List α → Prop
  | nil : Firsts key [] []
  | fresh {xs ys : List α} {x : α} (h : Firsts key xs ys) (hx : ∀ y ∈ xs, key y ≠ key x) :
      Firsts key (xs ++ [x]) (ys ++ [x])
  | again {xs ys : List α} {x : α} (h : Firsts key xs ys) (hx : ∃ y ∈ xs, key y = key x) :
      Firsts key (xs ++ [x]) ys

section Firsts

variable {α κ : Type} [BEq κ] [LawfulBEq κ] {key : α → κ} {xs ys : List α} {x : α}

theorem distinctBy_concat_of_fresh (hx : ∀ y ∈ xs, key y ≠ key x) :
    distinctBy key (xs ++ [x]) = distinctBy key xs ++ [x] := by
  have hnone : (xs.any fun y => key x == key y) = false := by
    rw [List.any_eq_false]
    intro y hy
    simpa using (hx y hy).symm
  rw [distinctBy_append]
  simp [distinctBy, hnone]

theorem distinctBy_concat_of_again (hx : ∃ y ∈ xs, key y = key x) :
    distinctBy key (xs ++ [x]) = distinctBy key xs := by
  obtain ⟨y, hy, hk⟩ := hx
  have hsome : (xs.any fun y => key x == key y) = true :=
    List.any_eq_true.2 ⟨y, hy, beq_iff_eq.2 hk.symm⟩
  rw [distinctBy_append]
  simp [distinctBy, hsome]

theorem firsts_distinctBy (key : α → κ) (xs : List α) : Firsts key xs (distinctBy key xs) := by
  induction xs using List.reverseRecOn with
  | nil => exact .nil
  | append_singleton xs x ih =>
    by_cases hx : ∃ y ∈ xs, key y = key x
    · rw [distinctBy_concat_of_again hx]
      exact .again ih hx
    · have hfresh : ∀ y ∈ xs, key y ≠ key x := fun y hy hk => hx ⟨y, hy, hk⟩
      rw [distinctBy_concat_of_fresh hfresh]
      exact .fresh ih hfresh

theorem firsts_iff : Firsts key xs ys ↔ ys = distinctBy key xs := by
  constructor
  · intro h
    induction h with
    | nil => rfl
    | fresh _ hx ih => rw [distinctBy_concat_of_fresh hx, ih]
    | again _ hx ih => rw [distinctBy_concat_of_again hx, ih]
  · intro h
    rw [h]
    exact firsts_distinctBy key xs

end Firsts

theorem distinct_cons {α : Type} [BEq α] (x : α) (xs : List α) :
    distinct (x :: xs) = x :: (distinct xs).filter (· != x) := rfl

variable {α β γ : Type} [BEq α] [LawfulBEq α] [BEq β] [LawfulBEq β] [BEq γ] [LawfulBEq γ]

theorem distinct_filter (p : α → Bool) (xs : List α) :
    distinct (xs.filter p) = (distinct xs).filter p := by
  induction xs with
  | nil => rfl
  | cons x xs ih =>
    rw [distinct_cons]
    cases hp : p x with
    | true =>
      rw [List.filter_cons_of_pos hp, List.filter_cons_of_pos hp, distinct_cons, ih,
        List.filter_comm]
    | false =>
      have hne : ∀ y, (p y && y != x) = p y := by
        intro y
        by_cases hy : y = x
        · simp [hy, hp]
        · simp [hy]
      rw [List.filter_cons_of_neg (by simp [hp]), List.filter_cons_of_neg (by simp [hp]), ih,
        List.filter_filter]
      simp only [hne]

theorem distinct_map {f : α → β} (hf : Function.Injective f) (xs : List α) :
    distinct (xs.map f) = (distinct xs).map f := by
  induction xs with
  | nil => rfl
  | cons x xs ih =>
    rw [List.map_cons, distinct_cons, distinct_cons, ih, List.map_cons, List.filter_map]
    simp [Function.comp_def, bne, hf.beq_eq]

/-- The pairs with one element are new, unless they were formed with it before. -/
theorem filter_map_pairs {f : α → β → γ} (hf : Function.Injective2 f) (x a : α) (ys : List β) :
    ((distinct ys).map (f a)).filter (fun z => !(ys.map (f x)).any fun y => id z == id y) =
      if a != x then (distinct ys).map (f a) else [] := by
  by_cases ha : a = x
  · have hgone : ∀ z ∈ (distinct ys).map (f a), ¬ (!(ys.map (f x)).any fun y => id z == id y) := by
      intro z hz
      obtain ⟨y, hy, rfl⟩ := List.mem_map.mp hz
      simpa [ha] using ⟨y, mem_distinct.mp hy, rfl⟩
    rw [List.filter_eq_nil_iff.mpr hgone, if_neg (by simp [ha])]
  · have hnew : ∀ z ∈ (distinct ys).map (f a), !(ys.map (f x)).any fun y => id z == id y := by
      intro z hz
      obtain ⟨y, -, rfl⟩ := List.mem_map.mp hz
      simpa using fun b _ heq => ha (hf heq).1
    rw [List.filter_eq_self.mpr hnew, if_pos (by simp [ha])]

/-- The pairs of a product without repetition are those of its two sides without repetition. -/
theorem distinct_flatMap_map {f : α → β → γ} (hf : Function.Injective2 f) (xs : List α)
    (ys : List β) : distinct (xs.flatMap fun x => ys.map (f x)) =
      (distinct xs).flatMap fun x => (distinct ys).map (f x) := by
  induction xs with
  | nil => rfl
  | cons x xs ih =>
    have hrest : ∀ zs : List α, (zs.flatMap fun a => (distinct ys).map (f a)).filter
        (fun z => !(ys.map (f x)).any fun y => id z == id y) =
          (zs.filter (· != x)).flatMap fun a => (distinct ys).map (f a) := by
      intro zs
      induction zs with
      | nil => rfl
      | cons a zs ih =>
        rw [List.flatMap_cons, List.filter_append, ih, filter_map_pairs hf, List.filter_cons]
        cases a != x with
        | true => rfl
        | false => rfl
    rw [List.flatMap_cons, distinct, distinctBy_append, distinct_cons, List.flatMap_cons, ← hrest]
    congr 1
    · exact distinct_map (hf.right x) ys
    · exact congrArg _ ih

end ChartQuery
