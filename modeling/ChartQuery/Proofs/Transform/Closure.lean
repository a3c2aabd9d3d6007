import ChartQuery.Proofs.Transform.Reach
import Mathlib.Data.List.Basic
import Mathlib.Data.List.Lattice

namespace ChartQuery.Transform

/-- Elements that a test sorts to the front are told apart again by the same test. -/
theorem filter_append_split {α : Type} {p : α → Bool} {xs ys : List α}
    (hxs : ∀ x ∈ xs, p x = true) (hys : ∀ y ∈ ys, p y = false) :
    (xs ++ ys).filter p = xs ∧ (xs ++ ys).filter (fun x => !p x) = ys := by
  rw [List.filter_append, List.filter_append, List.filter_eq_self.2 hxs,
    List.filter_eq_nil_iff.2 fun y hy => by simp [hys y hy],
    List.filter_eq_nil_iff.2 fun x hx => by simp [hxs x hx],
    List.filter_eq_self.2 fun y hy => by simp [hys y hy]]
  exact ⟨List.append_nil xs, List.nil_append ys⟩

section Rounds

variable {frontier rest found left : List Transform}

theorem readBy_of_mem_found (h : rest.partition (readBy frontier) = (found, left))
    {t : Transform} (ht : t ∈ found) : readBy frontier t = true :=
  readBy_iff.2 ((mem_found_iff h).1 ht).2

theorem not_readBy_of_mem_left (h : rest.partition (readBy frontier) = (found, left))
    {t : Transform} (ht : t ∈ left) : readBy frontier t = false := by
  rw [List.partition_eq_filter_filter, Prod.mk.injEq] at h
  rw [← h.2] at ht
  simpa using (List.mem_filter.1 ht).2

/-- What was discovered is discovered again, in the same rounds. -/
theorem discover_discover (frontier rest : List Transform) :
    discover frontier (discover frontier rest) = discover frontier rest := by
  fun_induction discover frontier rest with
  | case1 => exact discover_of_nothing rfl
  | case2 frontier rest t found left h ih =>
    have hfound : ∀ u ∈ t :: found, readBy frontier u = true := fun u hu => readBy_of_mem_found h hu
    have hlater : ∀ u ∈ discover (t :: found) left, readBy frontier u = false := by
      intro u hu
      exact not_readBy_of_mem_left h ((discover_subperm (t :: found) left).subset hu)
    obtain ⟨hround, hrest⟩ := filter_append_split hfound hlater
    have hsplit : (t :: found ++ discover (t :: found) left).partition (readBy frontier) =
        (t :: found, discover (t :: found) left) := by
      rw [List.partition_eq_filter_filter, hround]
      exact congrArg _ hrest
    rw [discover_of_found hsplit, ih]

/-- The rounds split the rest into what they discover and what is none of it. -/
theorem exists_discover_append_perm (frontier rest : List Transform) :
    ∃ others, (discover frontier rest ++ others).Perm rest ∧
      ∀ t ∈ others, t ∉ discover frontier rest := by
  fun_induction discover frontier rest with
  | case1 frontier rest left h => exact ⟨rest, List.Perm.refl rest, fun _ _ => List.not_mem_nil⟩
  | case2 frontier rest t found left h ih =>
    obtain ⟨others, hperm, hothers⟩ := ih
    refine ⟨others, ?_, ?_⟩
    · rw [List.append_assoc]
      exact (hperm.append_left (t :: found)).trans (found_append_left_perm h)
    · intro u hu hmem
      have hleft : u ∈ left := hperm.subset (List.mem_append_right _ hu)
      rcases List.mem_append.1 hmem with hfound | hlater
      · have hread := readBy_of_mem_found h hfound
        rw [not_readBy_of_mem_left h hleft] at hread
        cases hread
      · exact hothers u hu hlater

end Rounds

section Needed

variable {keys n m : List String} {ts : List Transform} {t : Transform}

theorem not_contains_of_mem_unnamed (ht : t ∈ ts.filter fun t => !keys.contains t.key) :
    keys.contains t.key = false := by
  simpa using (List.mem_filter.1 ht).2

/-- The keys name what they named before, and the rest comes in the same rounds. -/
theorem needed_needed (keys : List String) (ts : List Transform) :
    needed keys (needed keys ts) = needed keys ts := by
  have hlater : ∀ t ∈ discover (ts.filter fun t => keys.contains t.key)
      (ts.filter fun t => !keys.contains t.key), keys.contains t.key = false := by
    intro t ht
    exact not_contains_of_mem_unnamed ((discover_subperm _ _).subset ht)
  obtain ⟨hnamed, hrest⟩ := filter_append_split (fun t ht => (List.mem_filter.1 ht).2) hlater
  rw [needed.eq_1 keys (needed keys ts), needed, hnamed, hrest, discover_discover]

/-- Transforms that are all named stay as they are. -/
theorem needed_of_forall_mem (h : ∀ t ∈ ts, t.key ∈ keys) : needed keys ts = ts := by
  have hnamed : (ts.filter fun t => keys.contains t.key) = ts :=
    List.filter_eq_self.2 fun t ht => List.contains_iff_mem.2 (h t ht)
  have hrest : (ts.filter fun t => !keys.contains t.key) = [] :=
    List.filter_eq_nil_iff.2 fun t ht => by simp [h t ht]
  rw [needed, hnamed, hrest, discover_of_nothing rfl, List.append_nil]

/-- It does not matter in which order the keys come, or how often. -/
theorem needed_congr (h : ∀ k, k ∈ n ↔ k ∈ m) (ts : List Transform) :
    needed n ts = needed m ts := by
  have hsame : ∀ k, n.contains k = m.contains k := by
    intro k
    rw [Bool.eq_iff_iff, List.contains_iff_mem, List.contains_iff_mem, h]
  simp only [needed, hsame]

theorem exists_needed_append_perm (keys : List String) (ts : List Transform) :
    ∃ others, (needed keys ts ++ others).Perm ts ∧ ∀ t ∈ others, t ∉ needed keys ts := by
  obtain ⟨others, hperm, hothers⟩ := exists_discover_append_perm
    (ts.filter fun t => keys.contains t.key) (ts.filter fun t => !keys.contains t.key)
  refine ⟨others, ?_, ?_⟩
  · rw [needed, List.append_assoc]
    exact (hperm.append_left _).trans (List.filter_append_perm (fun t => keys.contains t.key) ts)
  · intro t ht hmem
    rcases List.mem_append.1 hmem with hnamed | hlater
    · have hkey := (List.mem_filter.1 hnamed).2
      rw [not_contains_of_mem_unnamed (hperm.subset (List.mem_append_right _ ht))] at hkey
      cases hkey
    · exact hothers t ht hlater

open Classical in
/-- A transform that is needed is kept as often as it comes. -/
theorem needed_perm_filter (keys : List String) (ts : List Transform) :
    (needed keys ts).Perm (ts.filter (· ∈ needed keys ts)) := by
  obtain ⟨others, hperm, hothers⟩ := exists_needed_append_perm keys ts
  have hsplit := (filter_append_split (p := (decide <| · ∈ needed keys ts))
    (fun t ht => decide_eq_true ht) (fun t ht => decide_eq_false (hothers t ht))).1
  have hboth := hperm.filter (decide <| · ∈ needed keys ts)
  rwa [hsplit] at hboth

theorem Reached.mono (h : n ⊆ m) (ht : Reached n ts t) : Reached m ts t := by
  induction ht with
  | named ht hk => exact .named ht (h hk)
  | read _ hu hr ih => exact .read ih hu hr

/-- A chain of references has one start, so one of the two sets is enough for it. -/
theorem reached_union_iff : Reached (n ∪ m) ts t ↔ Reached n ts t ∨ Reached m ts t := by
  constructor
  · intro h
    induction h with
    | named ht hk =>
      rcases List.mem_union_iff.1 hk with hk | hk
      · exact .inl (.named ht hk)
      · exact .inr (.named ht hk)
    | read _ hu hr ih => exact ih.imp (.read · hu hr) (.read · hu hr)
  · intro h
    rcases h with h | h
    · exact h.mono fun _ hk => List.mem_union_iff.2 (.inl hk)
    · exact h.mono fun _ hk => List.mem_union_iff.2 (.inr hk)

theorem mem_needed_union_iff :
    t ∈ needed (n ∪ m) ts ↔ t ∈ needed n ts ∨ t ∈ needed m ts := by
  rw [mem_needed_iff, mem_needed_iff, mem_needed_iff, reached_union_iff]

open Classical in
/-- Two sets of keys together need what each of them needs, as often as it comes. -/
theorem needed_union_perm (n m : List String) (ts : List Transform) :
    (needed (n ∪ m) ts).Perm (ts.filter fun t => t ∈ needed n ts ∨ t ∈ needed m ts) := by
  have hkept := needed_perm_filter (n ∪ m) ts
  simpa only [mem_needed_union_iff] using hkept

/-- More keys drop nothing. -/
theorem needed_subperm_of_subset (h : n ⊆ m) (ts : List Transform) :
    (needed n ts).Subperm (needed m ts) := by
  classical
  have hsame : needed (n ∪ m) ts = needed m ts := by
    apply needed_congr
    intro k
    rw [List.mem_union_iff]
    constructor
    · rintro (hk | hk)
      · exact h hk
      · exact hk
    · exact Or.inr
  have hmore : (ts.filter (· ∈ needed n ts)).Sublist
      (ts.filter fun t => t ∈ needed n ts ∨ t ∈ needed m ts) := by
    apply List.monotone_filter_right
    intro t ht
    simpa using Or.inl (of_decide_eq_true ht)
  rw [← hsame]
  exact (needed_perm_filter n ts).subperm.trans
    (hmore.subperm.trans (needed_union_perm n m ts).symm.subperm)

end Needed

open Classical in
/-- What is kept is all that the keys reach, as often as it comes. Pruning again changes nothing, be
it with the same keys or with those of what was kept; two sets of keys together keep what each of
them keeps, and so more keys drop nothing. -/
theorem needed_isClosure (ts : List Transform) :
    (∀ n, (needed n ts).Perm (ts.filter fun t => Reached n ts t)) ∧
      (∀ n, needed n (needed n ts) = needed n ts) ∧
      (∀ n, needed ((needed n ts).map key) (needed n ts) = needed n ts) ∧
      (∀ n m, (needed (n ∪ m) ts).Perm
        (ts.filter fun t => t ∈ needed n ts ∨ t ∈ needed m ts)) ∧
      ∀ n m, n ⊆ m → (needed n ts).Subperm (needed m ts) := by
  refine ⟨?_, fun n => needed_needed n ts, ?_, fun n m => needed_union_perm n m ts, ?_⟩
  · intro n
    have hkept := needed_perm_filter n ts
    simpa only [mem_needed_iff] using hkept
  · intro n
    exact needed_of_forall_mem fun t ht => List.mem_map_of_mem ht
  · intro n m hsub
    exact needed_subperm_of_subset hsub ts

/-- Two keys that lead to each other: each of them alone keeps both, in an order of its own. -/
example : ((needed ["a"] [⟨"a", ⟨"+", [.field "b"], "a"⟩⟩, ⟨"b", ⟨"+", [.field "a"], "b"⟩⟩]).map
    key = ["a", "b"]) ∧ ((needed ["b"] [⟨"a", ⟨"+", [.field "b"], "a"⟩⟩,
      ⟨"b", ⟨"+", [.field "a"], "b"⟩⟩]).map key = ["b", "a"]) := by
  constructor <;> cbv

end ChartQuery.Transform
