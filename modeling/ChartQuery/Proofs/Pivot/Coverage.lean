import ChartQuery.Proofs.Pivot.Groupings
import ChartQuery.Proofs.Pivot.Headers
import ChartQuery.Proofs.Pivot.Paths

namespace ChartQuery

theorem Collapsed.endsIn_of_contains {c : Collapsed} {path : Path} {s : Segment}
    (h : c.contains (path ++ [s]) = true) : c.endsIn s.key = true := by
  obtain ⟨e, he, hp⟩ := List.any_eq_true.mp h
  have hk := congrArg List.getLast? (Path.keys_eq_of_eqv hp)
  simp only [Path.keys, List.getLast?_map, List.getLast?_append, List.getLast?_singleton,
    Option.some_or, Option.map_some] at hk
  obtain ⟨t, ht, hs⟩ := Option.map_eq_some_iff.mp hk
  exact endsIn_iff.mpr ⟨e, he, t, ht, hs⟩

namespace Header

open Pivot (IsPartLength)

variable {c : Collapsed} {summary : Bool} {dims : List String} {rows : List Row}

theorem children_ne_nil {key : String} {h : Header} (hrows : rows ≠ [])
    (hc : h.children = withSummary summary h.path (beneath c summary (key :: dims) h.path rows)) :
    h.children ≠ [] := by
  obtain ⟨child, hm⟩ := List.exists_mem_of_ne_nil _
    (beneath_cons_ne_nil c summary key dims h.path hrows)
  rw [hc]
  exact List.ne_nil_of_mem (subset_withSummary _ _ _ hm)

/-- A leaf groups by the dimensions of any header above it and a planned part of the others. -/
theorem exists_isPartLength_of_mem_leaves {h leaf : Header} (hrows : rows ≠ [])
    (hc : h.children = withSummary summary h.path (beneath c summary dims h.path rows))
    (hl : leaf ∈ h.leaves) :
    ∃ n, IsPartLength dims c summary n ∧ leaf.path.keys = h.path.keys ++ dims.take n := by
  induction dims generalizing h rows with
  | nil =>
    have hnil : h.children = [] := by simpa [beneath, withSummary] using hc
    rw [leaves_of_children_eq_nil hnil] at hl
    obtain rfl := List.mem_singleton.mp hl
    exact ⟨0, .inl rfl, by simp⟩
  | cons key dims ih =>
    rw [leaves_of_children_ne_nil (children_ne_nil hrows hc), mem_leavesIn, hc] at hl
    obtain ⟨child, hm, hl⟩ := hl
    rcases mem_withSummary hm with hm | ⟨rfl, rfl⟩
    · rw [beneath_cons] at hm
      obtain ⟨v, hv, rfl⟩ := List.mem_map.mp hm
      cases hcol : c.contains (h.path ++ [⟨key, v.toLiteral⟩]) with
      | true =>
        rw [leaves_of_children_eq_nil (ofValue_children_of_collapsed _ _ _ _ _ _ _ hcol)] at hl
        obtain rfl := List.mem_singleton.mp hl
        refine ⟨1, .one key dims summary (Collapsed.endsIn_of_contains hcol), ?_⟩
        simp
      | false =>
        obtain ⟨n, hn, hk⟩ := ih (filter_ne_nil_of_mem_ascending hv)
          (ofValue_children _ _ _ _ _ _ _ hcol) hl
        exact ⟨n + 1, hn.cons key, by simpa using hk⟩
    · rw [leaves_summaryOf] at hl
      obtain rfl := List.mem_singleton.mp hl
      exact ⟨0, .zero key dims c, by simp [summaryOf]⟩

/-- With summaries and nothing collapsed there is a leaf for each leading part. -/
theorem exists_mem_leaves_of_le {h : Header} {n : Nat} (hn : n ≤ dims.length) (hrows : rows ≠ [])
    (hc : h.children = withSummary true h.path (beneath .empty true dims h.path rows)) :
    ∃ leaf ∈ h.leaves, leaf.path.keys = h.path.keys ++ dims.take n := by
  induction dims generalizing h rows n with
  | nil =>
    have hnil : h.children = [] := by simpa [beneath, withSummary] using hc
    exact ⟨h, by simp [leaves_of_children_eq_nil hnil], by simp⟩
  | cons key dims ih =>
    have hleaves := leaves_of_children_ne_nil (children_ne_nil hrows hc)
    cases n with
    | zero =>
      refine ⟨summaryOf h.path, ?_, by simp [summaryOf]⟩
      rw [hleaves, mem_leavesIn, hc]
      exact ⟨summaryOf h.path,
        summaryOf_mem_withSummary (beneath_cons_ne_nil _ _ _ _ _ hrows), by simp⟩
    | succ n =>
      have hvs : HeaderValue.ascending (rows.map (·.header key)) ≠ [] :=
        HeaderValue.ascending_ne_nil (by simpa using hrows)
      obtain ⟨v, hv⟩ := List.exists_mem_of_ne_nil _ hvs
      let child := ofValue .empty true key dims h.path rows v
      have hm : child ∈ h.children := by
        rw [hc]
        exact subset_withSummary _ _ _ (List.mem_map.mpr ⟨v, hv, rfl⟩)
      obtain ⟨leaf, hl, hk⟩ := ih (h := child) (Nat.le_of_succ_le_succ hn)
        (filter_ne_nil_of_mem_ascending hv) (ofValue_children _ _ _ _ _ _ _ rfl)
      refine ⟨leaf, ?_, by simpa [child] using hk⟩
      rw [hleaves, mem_leavesIn]
      exact ⟨child, hm, hl⟩

/-- The leaves of an axis group by planned leading parts of its dimensions. -/
theorem keys_mem_leadingParts {leaf : Header} (hrows : rows ≠ [])
    (hl : leaf ∈ (ofRows c summary dims rows).leaves) :
    leaf.path.keys ∈ Pivot.leadingParts dims c summary := by
  obtain ⟨n, hn, hk⟩ := exists_isPartLength_of_mem_leaves (h := ofRows c summary dims rows)
    hrows rfl hl
  exact Pivot.mem_leadingParts.mpr ⟨n, hn, by simpa [ofRows] using hk⟩

theorem exists_leaf_of_mem_leadingParts {part : List String} (hrows : rows ≠ [])
    (hp : part ∈ Pivot.leadingParts dims .empty true) :
    ∃ leaf ∈ (ofRows .empty true dims rows).leaves, leaf.path.keys = part := by
  obtain ⟨n, hn, rfl⟩ := Pivot.mem_leadingParts.mp hp
  exact exists_mem_leaves_of_le hn.length_le hrows rfl

end Header

namespace Pivot

theorem ofPaths_mem_groupings {p : Pivot} {c : Collapsed} {results : Results} {base : List Row}
    (hb : results.get? p.full = some base) (hne : base ≠ []) {row column : Path}
    (hrow : row ∈ (p.table c results).rowLeaves)
    (hcolumn : column ∈ (p.table c results).columnLeaves) :
    Grouping.ofPaths row column ∈ groupings p.rows p.columns c p.options.showSummary := by
  simp only [table, hb, Option.getD_some, List.mem_map] at hrow hcolumn
  obtain ⟨rl, hrl, rfl⟩ := hrow
  obtain ⟨cl, hcl, rfl⟩ := hcolumn
  exact mem_groupings.mpr
    ⟨Header.keys_mem_leadingParts hne hrl, Header.keys_mem_leadingParts hne hcl⟩

def salesResults : Results := Results.empty.insert (sales true).full salesRows

/-- Every cell of a table reads a planned grouping, and with summaries and nothing collapsed no
grouping is planned in vain. -/
theorem planned_groupings_of_leaves (p : Pivot) (c : Collapsed) (results : Results)
    (base : List Row) (hb : results.get? p.full = some base) (hne : base ≠ []) :
    (∀ row ∈ (p.table c results).rowLeaves, ∀ column ∈ (p.table c results).columnLeaves,
      Grouping.ofPaths row column ∈ groupings p.rows p.columns c p.options.showSummary) ∧
    (p.options.showSummary = true → c = .empty →
      ∀ g, g ∈ groupings p.rows p.columns c p.options.showSummary ↔
        ∃ row ∈ (p.table c results).rowLeaves, ∃ column ∈ (p.table c results).columnLeaves,
          Grouping.ofPaths row column = g) := by
  refine ⟨fun row hrow column hcolumn => ofPaths_mem_groupings hb hne hrow hcolumn, ?_⟩
  intro hs hc g
  constructor
  · intro hg
    rw [hs, hc, mem_groupings] at hg
    obtain ⟨rl, hrl, hrk⟩ := Header.exists_leaf_of_mem_leadingParts hne hg.1
    obtain ⟨cl, hcl, hck⟩ := Header.exists_leaf_of_mem_leadingParts hne hg.2
    refine ⟨rl.path, ?_, cl.path, ?_, ?_⟩
    · simp only [table, hb, hs, hc, Option.getD_some]
      exact List.mem_map.mpr ⟨rl, hrl, rfl⟩
    · simp only [table, hb, hs, hc, Option.getD_some]
      exact List.mem_map.mpr ⟨cl, hcl, rfl⟩
    · show Grouping.mk rl.path.keys cl.path.keys = g
      rw [hrk, hck]
  · rintro ⟨row, hrow, column, hcolumn, rfl⟩
    exact ofPaths_mem_groupings hb hne hrow hcolumn

theorem planned_groupings_of_sales :
    salesResults.get? (sales true).full = some salesRows ∧ salesRows ≠ [] ∧
    (∀ row ∈ ((sales false).table salesCollapsed salesResults).rowLeaves,
      ∀ column ∈ ((sales false).table salesCollapsed salesResults).columnLeaves,
        Grouping.ofPaths row column ∈
          groupings ["Region", "Category"] ["Year"] salesCollapsed false) ∧
    ∀ g, g ∈ groupings ["Region", "Category"] ["Year"] .empty true ↔
      ∃ row ∈ ((sales true).table .empty salesResults).rowLeaves,
        ∃ column ∈ ((sales true).table .empty salesResults).columnLeaves,
          Grouping.ofPaths row column = g := by
  have hb : salesResults.get? (sales true).full = some salesRows := rfl
  have hne : salesRows ≠ [] := by simp [salesRows]
  refine ⟨hb, hne, ?_, ?_⟩
  · exact (planned_groupings_of_leaves (sales false) salesCollapsed salesResults salesRows hb hne).1
  · exact (planned_groupings_of_leaves (sales true) .empty salesResults salesRows hb hne).2 rfl rfl

end Pivot

end ChartQuery
