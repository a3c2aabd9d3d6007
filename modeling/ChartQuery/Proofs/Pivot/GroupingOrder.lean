import ChartQuery.Proofs.Distinct
import ChartQuery.Proofs.Pivot.Groupings
import Mathlib.Data.List.Sort

namespace ChartQuery

/-- Ascending by the length of the columns, then by that of the rows. -/
def Grouping.Precedes (g g' : Grouping) : Prop :=
  g.columns.length < g'.columns.length ∨
    g.columns.length = g'.columns.length ∧ g.rows.length < g'.rows.length

theorem Grouping.Precedes.ne {g g' : Grouping} (h : g.Precedes g') : g ≠ g' := by
  rintro rfl
  rcases h with h | ⟨-, h⟩
  · exact Nat.lt_irrefl _ h
  · exact Nat.lt_irrefl _ h

namespace Pivot

section Lengths

variable {dims : List String} {c : Collapsed} {summary : Bool} {n : Nat}

theorem isPartLength_iff : IsPartLength dims c summary n ↔
    n = dims.length ∨
      if summary then n < dims.length else 0 < n ∧ dims[n - 1]?.any c.endsIn = true := by
  cases summary with
  | true => rfl
  | false =>
    simp only [IsPartLength, Bool.false_eq_true, if_false, Option.any_eq_true]
    refine or_congr_right ⟨?_, ?_⟩
    · rintro ⟨i, fid, hi, hc, rfl⟩
      exact ⟨i.succ_pos, fid, hi, hc⟩
    · rintro ⟨hn, fid, hi, hc⟩
      exact ⟨n - 1, fid, hi, hc, (Nat.sub_add_cancel hn).symm⟩

instance : Decidable (IsPartLength dims c summary n) := decidable_of_iff' _ isPartLength_iff

end Lengths

/-- The lengths of the planned leading parts of an axis, ascending. -/
def partLengths (dims : List String) (c : Collapsed) (summary : Bool) : List Nat :=
  (List.range (dims.length + 1)).filter (IsPartLength dims c summary ·)

variable {dims : List String} {c : Collapsed} {summary : Bool} {n : Nat}

theorem mem_partLengths : n ∈ partLengths dims c summary ↔ IsPartLength dims c summary n := by
  simp only [partLengths, List.mem_filter, List.mem_range, decide_eq_true_eq]
  exact ⟨And.right, fun h => ⟨Nat.lt_succ_of_le h.length_le, h⟩⟩

theorem partLengths_pairwise (dims : List String) (c : Collapsed) (summary : Bool) :
    (partLengths dims c summary).Pairwise (· < ·) :=
  List.pairwise_lt_range.filter _

theorem length_mem_partLengths {part : List String} (h : part ∈ leadingParts dims c summary) :
    part.length ∈ partLengths dims c summary ∧ dims.take part.length = part := by
  obtain ⟨n, hn, rfl⟩ := mem_leadingParts.mp h
  have hlength : (dims.take n).length = n := List.length_take_of_le hn.length_le
  rw [hlength]
  exact ⟨mem_partLengths.mpr hn, rfl⟩

/-- The planned leading parts get longer, at least until the whole axis is there. -/
theorem leadingParts_pairwise (dims : List String) (c : Collapsed) (summary : Bool) :
    (leadingParts dims c summary).Pairwise fun p q => p.length ≤ q.length := by
  have htake : ∀ {ns : List Nat}, ns.Pairwise (· < ·) →
      (ns.map dims.take).Pairwise fun p q => p.length ≤ q.length := by
    intro ns hns
    refine List.pairwise_map.mpr (hns.imp fun hlt => ?_)
    rw [List.length_take, List.length_take]
    omega
  refine List.pairwise_append.mpr ⟨htake ?_, List.pairwise_singleton .., ?_⟩
  · cases summary with
    | true => exact List.pairwise_lt_range
    | false =>
      have hplaces : (dims.zipIdx.map Prod.snd).Pairwise (· < ·) := by
        rw [List.zipIdx_map_snd]
        exact List.pairwise_lt_range'
      have hshift := ((List.pairwise_map.mp hplaces).filter fun d => c.endsIn d.1).imp
        fun hlt => Nat.succ_lt_succ hlt
      exact List.pairwise_map.mpr hshift
  · intro p hp q hq
    obtain ⟨n, -, rfl⟩ := List.mem_map.mp hp
    rw [List.mem_singleton.mp hq, List.length_take]
    exact Nat.min_le_right ..

/-- An axis that ends in a collapsed dimension is listed twice. Apart from this there is one leading
part for each length. -/
theorem distinct_leadingParts (dims : List String) (c : Collapsed) (summary : Bool) :
    distinct (leadingParts dims c summary) = (partLengths dims c summary).map dims.take := by
  have hpart : ∀ part ∈ distinct (leadingParts dims c summary),
      part.length ∈ partLengths dims c summary ∧ dims.take part.length = part :=
    fun part h => length_mem_partLengths (mem_distinct.mp h)
  have hascending :
      ((distinct (leadingParts dims c summary)).map List.length).Pairwise (· < ·) := by
    have hweak := (leadingParts_pairwise dims c summary).sublist (distinctBy_sublist id _)
    refine List.pairwise_map.mpr ((hweak.and (distinct_nodup _)).imp_of_mem ?_)
    rintro p q hp hq ⟨hle, hne⟩
    refine Nat.lt_of_le_of_ne hle fun heq => hne ?_
    rw [← (hpart p hp).2, heq, (hpart q hq).2]
  have hlengths : (distinct (leadingParts dims c summary)).map List.length =
      partLengths dims c summary := by
    refine hascending.eq_of_mem_iff (partLengths_pairwise dims c summary) fun n => ?_
    rw [List.mem_map]
    constructor
    · rintro ⟨part, hp, rfl⟩
      exact (hpart part hp).1
    · intro hn
      have hpart := mem_partLengths.mp hn
      exact ⟨dims.take n, mem_distinct.mpr (mem_leadingParts.mpr ⟨n, hpart, rfl⟩),
        List.length_take_of_le hpart.length_le⟩
  calc distinct (leadingParts dims c summary)
      = (distinct (leadingParts dims c summary)).map (dims.take ·.length) :=
        (List.map_congr_left fun part h => (hpart part h).2).trans (List.map_id _) |>.symm
    _ = (partLengths dims c summary).map dims.take := by rw [← hlengths, List.map_map]; rfl

/-- One grouping for each pair of lengths, that of the rows changing faster. -/
def gradedGroupings (rows columns : List String) (c : Collapsed) (summary : Bool) :
    List Grouping :=
  (partLengths columns c summary).flatMap fun j =>
    (partLengths rows c summary).map fun i => ⟨rows.take i, columns.take j⟩

variable {rows columns : List String}

theorem distinct_pairings (rows columns : List String) (c : Collapsed) (summary : Bool) :
    distinct (pairings rows columns c summary) = gradedGroupings rows columns c summary := by
  have hinjective : Function.Injective2 fun cs rs => Grouping.mk rs cs := by
    intro cs cs' rs rs' h
    exact ⟨congrArg Grouping.columns h, congrArg Grouping.rows h⟩
  rw [pairings, distinct_flatMap_map hinjective, distinct_leadingParts, distinct_leadingParts,
    List.flatMap_map, gradedGroupings]
  simp only [List.map_map, Function.comp_def]

theorem gradedGroupings_pairwise (rows columns : List String) (c : Collapsed) (summary : Bool) :
    (gradedGroupings rows columns c summary).Pairwise Grouping.Precedes := by
  have hlength : ∀ {dims : List String} {n : Nat}, n ∈ partLengths dims c summary →
      (dims.take n).length = n := fun hn =>
    List.length_take_of_le (mem_partLengths.mp hn).length_le
  refine List.pairwise_flatMap.mpr ⟨fun j _ => ?_, ?_⟩
  · refine List.pairwise_map.mpr ((partLengths_pairwise rows c summary).imp_of_mem ?_)
    intro i i' hi hi' hlt
    exact .inr ⟨rfl, by rw [hlength hi, hlength hi']; exact hlt⟩
  · refine (partLengths_pairwise columns c summary).imp_of_mem ?_
    intro j j' hj hj' hlt g hg g' hg'
    obtain ⟨i, -, rfl⟩ := List.mem_map.mp hg
    obtain ⟨i', -, rfl⟩ := List.mem_map.mp hg'
    exact .inl (by rw [hlength hj, hlength hj']; exact hlt)

/-- The length of the whole axis is the last one. -/
theorem exists_partLengths_eq (dims : List String) (c : Collapsed) (summary : Bool) :
    ∃ ns, partLengths dims c summary = ns ++ [dims.length] := by
  have hwhole : IsPartLength dims c summary dims.length := .inl rfl
  refine ⟨(List.range dims.length).filter (IsPartLength dims c summary ·), ?_⟩
  rw [partLengths, List.range_succ, List.filter_append, List.filter_singleton]
  simp [hwhole]

theorem exists_gradedGroupings_eq (rows columns : List String) (c : Collapsed) (summary : Bool) :
    ∃ others, gradedGroupings rows columns c summary = others ++ [⟨rows, columns⟩] := by
  obtain ⟨is, hrows⟩ := exists_partLengths_eq rows c summary
  obtain ⟨js, hcolumns⟩ := exists_partLengths_eq columns c summary
  rw [gradedGroupings, hrows, hcolumns, List.flatMap_append, List.flatMap_singleton,
    List.map_append, List.map_singleton, List.take_length, List.take_length, ← List.append_assoc]
  exact ⟨_, rfl⟩

/-- Setting the finest grouping aside until the end changes nothing, because it is the last one. -/
theorem groupings_eq_gradedGroupings (rows columns : List String) (c : Collapsed)
    (summary : Bool) :
    groupings rows columns c summary = gradedGroupings rows columns c summary := by
  obtain ⟨others, hothers⟩ := exists_gradedGroupings_eq rows columns c summary
  have hpairwise := gradedGroupings_pairwise rows columns c summary
  rw [hothers, List.pairwise_append] at hpairwise
  have hne : ∀ g ∈ others, (g != ⟨rows, columns⟩) = true := by
    intro g hg
    simpa using (hpairwise.2.2 g hg _ (List.mem_singleton_self _)).ne
  rw [groupings, distinct_filter, distinct_pairings, hothers, List.filter_append,
    List.filter_eq_self.mpr hne]
  simp

/-- The plan has one grouping for each pair of a planned row length and a planned column length. The
columns get longer first, then the rows, and the finest grouping is the last. With summaries it does
not matter what is collapsed. -/
theorem groupings_graded (rows columns : List String) (c : Collapsed) (summary : Bool) :
    groupings rows columns c summary =
        ((partLengths columns c summary).flatMap fun j =>
          (partLengths rows c summary).map fun i => ⟨rows.take i, columns.take j⟩) ∧
      (groupings rows columns c summary).Pairwise Grouping.Precedes ∧
      (∃ others, groupings rows columns c summary = others ++ [⟨rows, columns⟩] ∧
        ⟨rows, columns⟩ ∉ others) ∧
      ∀ d, groupings rows columns c true = groupings rows columns d true := by
  have hpairwise := gradedGroupings_pairwise rows columns c summary
  obtain ⟨others, hothers⟩ := exists_gradedGroupings_eq rows columns c summary
  rw [groupings_eq_gradedGroupings]
  refine ⟨rfl, hpairwise, ⟨others, hothers, ?_⟩, fun d => rfl⟩
  intro hmem
  rw [hothers, List.pairwise_append] at hpairwise
  exact (hpairwise.2.2 _ hmem _ (List.mem_singleton_self _)).ne rfl

/-- The rows name a dimension twice, and it is collapsed, so the whole axis is planned twice. -/
example : groupings ["Year", "Year"] ["Region"] (.ofEntries [("none", [⟨"Year", .null⟩])]) false =
    [⟨["Year"], ["Region"]⟩, ⟨["Year", "Year"], ["Region"]⟩] := by decide

end Pivot

end ChartQuery
