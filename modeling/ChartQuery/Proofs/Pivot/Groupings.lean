import ChartQuery.Pivot.Groupings
import ChartQuery.Pivot.Row

namespace ChartQuery

theorem Collapsed.endsIn_iff {c : Collapsed} {fid : String} :
    c.endsIn fid = true ↔ ∃ e ∈ c.entries, ∃ s, e.2.getLast? = some s ∧ s.key = fid := by
  simp only [endsIn, List.any_eq_true, Option.any_eq_true, beq_iff_eq]

namespace Pivot

/-- The length of a planned leading part of an axis. -/
def IsPartLength (dims : List String) (c : Collapsed) (summary : Bool) (n : Nat) : Prop :=
  n = dims.length ∨
    if summary then n < dims.length
    else ∃ i fid, dims[i]? = some fid ∧ c.endsIn fid = true ∧ n = i + 1

namespace IsPartLength

variable {dims : List String} {c : Collapsed} {summary : Bool} {n : Nat}

theorem length_le (h : IsPartLength dims c summary n) : n ≤ dims.length := by
  rcases h with rfl | h
  · exact Nat.le_refl _
  · cases summary with
    | true => exact Nat.le_of_lt (by simpa using h)
    | false =>
      simp only [Bool.false_eq_true, if_false] at h
      obtain ⟨i, fid, hi, -, rfl⟩ := h
      obtain ⟨hlt, -⟩ := List.getElem?_eq_some_iff.mp hi
      exact hlt

theorem cons (h : IsPartLength dims c summary n) (key : String) :
    IsPartLength (key :: dims) c summary (n + 1) := by
  rcases h with rfl | h
  · exact .inl rfl
  · refine .inr ?_
    cases summary with
    | true => simpa using h
    | false =>
      simp only [Bool.false_eq_true, if_false] at h ⊢
      obtain ⟨i, fid, hi, hc, rfl⟩ := h
      exact ⟨i + 1, fid, hi, hc, rfl⟩

theorem zero (key : String) (dims : List String) (c : Collapsed) :
    IsPartLength (key :: dims) c true 0 := by
  simp [IsPartLength]

/-- A collapsed header at the first dimension groups by that dimension alone. -/
theorem one (key : String) (dims : List String) (summary : Bool) (hc : c.endsIn key = true) :
    IsPartLength (key :: dims) c summary 1 := by
  cases summary with
  | true => cases dims <;> simp [IsPartLength]
  | false => exact .inr ⟨0, key, rfl, hc, rfl⟩

end IsPartLength

/-- Without summaries a part is planned, besides the whole axis, if its last dimension is the key of
the last segment of some collapsed path. -/
theorem isPartLength_false_iff {dims : List String} {c : Collapsed} {n : Nat} :
    IsPartLength dims c false n ↔ n = dims.length ∨ ∃ i, n = i + 1 ∧
      ∃ e ∈ c.entries, ∃ s, e.2.getLast? = some s ∧ dims[i]? = some s.key := by
  rw [IsPartLength]
  simp only [Bool.false_eq_true, if_false, Collapsed.endsIn_iff]
  apply or_congr_right
  constructor
  · rintro ⟨i, fid, hi, ⟨e, he, s, hs, rfl⟩, rfl⟩
    exact ⟨i, rfl, e, he, s, hs, hi⟩
  · rintro ⟨i, rfl, e, he, s, hs, hi⟩
    exact ⟨i, s.key, hi, ⟨e, he, s, hs, rfl⟩, rfl⟩

theorem mem_leadingParts {dims : List String} {c : Collapsed} {summary : Bool}
    {part : List String} : part ∈ leadingParts dims c summary ↔
      ∃ n, IsPartLength dims c summary n ∧ part = dims.take n := by
  cases summary with
  | true =>
    simp only [leadingParts, IsPartLength, if_true, List.mem_append, List.mem_map,
      List.mem_range, List.mem_singleton]
    constructor
    · rintro (⟨n, hn, rfl⟩ | rfl)
      · exact ⟨n, .inr hn, rfl⟩
      · exact ⟨_, .inl rfl, by simp⟩
    · rintro ⟨n, rfl | hn, rfl⟩
      · simp
      · exact .inl ⟨n, hn, rfl⟩
  | false =>
    simp only [leadingParts, IsPartLength, Bool.false_eq_true, if_false, List.mem_append,
      List.mem_map, List.mem_filter, List.mem_singleton]
    constructor
    · rintro (⟨n, ⟨⟨fid, i⟩, ⟨hm, hc⟩, rfl⟩, rfl⟩ | rfl)
      · exact ⟨i + 1, .inr ⟨i, fid, List.mem_zipIdx_iff_getElem?.mp hm, hc, rfl⟩, rfl⟩
      · exact ⟨_, .inl rfl, by simp⟩
    · rintro ⟨n, rfl | ⟨i, fid, hi, hc, rfl⟩, rfl⟩
      · simp
      · exact .inl ⟨i + 1, ⟨(fid, i), ⟨List.mem_zipIdx_iff_getElem?.mpr hi, hc⟩, rfl⟩, rfl⟩

theorem mem_pairings {rows columns : List String} {c : Collapsed} {summary : Bool}
    {g : Grouping} : g ∈ pairings rows columns c summary ↔
      g.rows ∈ leadingParts rows c summary ∧ g.columns ∈ leadingParts columns c summary := by
  simp only [pairings, List.mem_flatMap, List.mem_map]
  constructor
  · rintro ⟨cs, hcs, rs, hrs, rfl⟩
    exact ⟨hrs, hcs⟩
  · rintro ⟨hrs, hcs⟩
    exact ⟨g.columns, hcs, g.rows, hrs, rfl⟩

theorem full_mem_pairings (rows columns : List String) (c : Collapsed) (summary : Bool) :
    ⟨rows, columns⟩ ∈ pairings rows columns c summary :=
  mem_pairings.mpr ⟨mem_leadingParts.mpr ⟨_, .inl rfl, by simp⟩,
    mem_leadingParts.mpr ⟨_, .inl rfl, by simp⟩⟩

theorem mem_groupings {rows columns : List String} {c : Collapsed} {summary : Bool}
    {g : Grouping} : g ∈ groupings rows columns c summary ↔
      g.rows ∈ leadingParts rows c summary ∧ g.columns ∈ leadingParts columns c summary := by
  rw [← mem_pairings, groupings, List.mem_append, mem_distinct, List.mem_filter,
    List.mem_singleton]
  constructor
  · rintro (⟨h, -⟩ | rfl)
    · exact h
    · exact full_mem_pairings rows columns c summary
  · intro h
    by_cases hg : g = ⟨rows, columns⟩
    · exact .inr hg
    · exact .inl ⟨h, by simpa using hg⟩

theorem groupings_nodup (rows columns : List String) (c : Collapsed) (summary : Bool) :
    (groupings rows columns c summary).Nodup := by
  refine List.nodup_append.mpr ⟨distinct_nodup _, by simp, ?_⟩
  rintro g hg g' hg' rfl
  have hm := (List.mem_filter.mp (mem_distinct.mp hg)).2
  obtain rfl := List.mem_singleton.mp hg'
  simp at hm

theorem full_mem_groupings (rows columns : List String) (c : Collapsed) (summary : Bool) :
    ⟨rows, columns⟩ ∈ groupings rows columns c summary := by
  simp [groupings]

/-- Sales in two regions, by category and year. -/
def sales (summary : Bool) : Pivot :=
  ⟨["Region", "Category"], ["Year"], [.new "Sales" "count"], ⟨summary, true⟩⟩

def salesRows : List Row :=
  [[("Region", .text "East"), ("Category", .text "Tech"), ("Year", .text "2023")],
    [("Region", .text "East"), ("Category", .text "Office"), ("Year", .text "2023")],
    [("Region", .text "West"), ("Category", .text "Office"), ("Year", .text "2024")]]

def salesCollapsed : Collapsed := .ofEntries [("East", [⟨"Region", .text "East"⟩])]

example : groupings ["Region", "Category"] ["Year"] salesCollapsed false =
    [⟨["Region"], ["Year"]⟩, ⟨["Region", "Category"], ["Year"]⟩] := by decide

end Pivot

end ChartQuery
