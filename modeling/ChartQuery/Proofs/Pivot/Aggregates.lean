import ChartQuery.Proofs.Pivot.Cells
import ChartQuery.Proofs.Pivot.Coherence
import ChartQuery.Proofs.Pivot.Coverage
import Mathlib.Data.List.Basic
import Mathlib.Data.List.Pairwise

namespace ChartQuery

/-- An answer to an aggregate query: one row for each group of the dataset, with the values of the
group and of all measures. -/
structure IsGrouped (data : List Row) (groupBy : List String) (measures : List Measure)
    (rows : List Row) : Prop where
  group : ∀ r ∈ rows, ∃ d ∈ data, (r.headers groupBy == d.headers groupBy) = true
  row : ∀ d ∈ data, ∃ r ∈ rows, (r.headers groupBy == d.headers groupBy) = true
  once : rows.Pairwise fun r s => (r.headers groupBy == s.headers groupBy) = false
  measured : ∀ r ∈ rows, ∀ m ∈ measures, (r.get? m.output).isSome = true

/-- All aggregate queries are answered so, unless a measure takes the column of a dimension. -/
def Aggregates (data : List Row) (answer : ViewQuery → List Row) : Prop :=
  ∀ groupBy (measures : List Measure), (∀ m ∈ measures, m.output ∉ groupBy) →
    IsGrouped data groupBy measures (answer (.aggregate groupBy measures))

/-- The cell has the measures of a row, in their order. -/
structure Cell.Shows (cell : Cell) (measures : List Measure) (r : Row) : Prop where
  length : cell.values.length = measures.length
  value : ∀ (k : Nat) (m : Measure), measures[k]? = some m →
    ∃ x, r.get? m.output = some x ∧ cell.values[k]? = some (some x)

namespace IsGrouped

variable {data rows : List Row} {groupBy : List String} {measures : List Measure}
  {vs : List HeaderValue}

theorem eq_of_headers (h : IsGrouped data groupBy measures rows) {r s : Row} (hr : r ∈ rows)
    (hs : s ∈ rows) (he : (s.headers groupBy == r.headers groupBy) = true) : s = r :=
  Row.eq_of_headers_beq h.once hs hr he

theorem find?_isSome_iff (h : IsGrouped data groupBy measures rows) :
    (rows.find? fun r => r.headers groupBy == vs).isSome = true ↔
      ∃ d ∈ data, (d.headers groupBy == vs) = true := by
  rw [List.find?_isSome]
  constructor
  · rintro ⟨r, hr, hv⟩
    obtain ⟨d, hd, he⟩ := h.group r hr
    exact ⟨d, hd, BEq.trans (BEq.symm he) hv⟩
  · rintro ⟨d, hd, hv⟩
    obtain ⟨r, hr, he⟩ := h.row d hd
    exact ⟨r, hr, BEq.trans he hv⟩

theorem of_find?_eq_some (h : IsGrouped data groupBy measures rows) {r : Row}
    (hf : (rows.find? fun r => r.headers groupBy == vs) = some r) :
    r ∈ rows ∧ ∀ s ∈ rows, (s.headers groupBy == vs) = true ↔ s = r := by
  have hr := List.mem_of_find?_eq_some hf
  have hv : (r.headers groupBy == vs) = true := by
    simpa using List.find?_some hf
  refine ⟨hr, fun s hs => ⟨fun he => ?_, ?_⟩⟩
  · exact h.eq_of_headers hr hs (BEq.trans he (BEq.symm hv))
  · rintro rfl
    exact hv

/-- Leaves that show the answer show the dataset as well. -/
theorem showOnce (h : IsGrouped data groupBy measures rows) {leaves : List Header}
    {dims : List String}
    (hdims : ∀ r d : Row, (r.headers groupBy == d.headers groupBy) = true →
      (r.headers dims == d.headers dims) = true)
    (hshow : Header.ShowOnce leaves dims rows) : Header.ShowOnce leaves dims data := by
  apply hshow.congr
  · intro d hd
    obtain ⟨r, hr, heq⟩ := h.row d hd
    exact ⟨r, hr, hdims r d heq⟩
  · intro r hr
    obtain ⟨d, hd, heq⟩ := h.group r hr
    exact ⟨d, hd, hdims r d heq⟩

end IsGrouped

theorem Header.keys_isPrefix_of_mem_leaves {c : Collapsed} {summary : Bool} {dims : List String}
    {rows : List Row} {leaf : Header} (hl : leaf ∈ (ofRows c summary dims rows).leaves) :
    leaf.path.keys <+: dims := by
  by_cases hrows : rows = []
  · have hnil : (ofRows c summary dims rows).children = [] := by
      subst hrows
      cases dims <;> simp [ofRows, beneath, withSummary, HeaderValue.ascending]
    rw [leaves_of_children_eq_nil hnil] at hl
    obtain rfl := List.mem_singleton.mp hl
    exact List.nil_prefix
  · obtain ⟨n, -, hk⟩ := Pivot.mem_leadingParts.mp (keys_mem_leadingParts hrows hl)
    rw [hk]
    exact List.take_prefix n dims

namespace Pivot

variable {p : Pivot} {c : Collapsed} {results : Results} {row column : Path}

theorem rowKeys_isPrefix (h : row ∈ (p.table c results).rowLeaves) : row.keys <+: p.rows := by
  obtain ⟨leaf, hl, rfl⟩ := List.mem_map.mp h
  exact Header.keys_isPrefix_of_mem_leaves hl

theorem columnKeys_isPrefix (h : column ∈ (p.table c results).columnLeaves) :
    column.keys <+: p.columns := by
  obtain ⟨leaf, hl, rfl⟩ := List.mem_map.mp h
  exact Header.keys_isPrefix_of_mem_leaves hl

/-- A row of the dataset lies beneath two leaves if it is in the group that they stand for. -/
theorem headers_groupBy_iff (hrow : row.keys <+: p.rows) (hcolumn : column.keys <+: p.columns)
    (d : Row) :
    (d.headers (Grouping.ofPaths row column).groupBy == column.headers ++ row.headers) = true ↔
      row.headers.isPrefixOf (d.headers p.rows) = true ∧
      column.headers.isPrefixOf (d.headers p.columns) = true := by
  rw [Path.headers_groupBy_beq, Row.headers_append,
    append_beq_append (by rw [Path.length_headers, Row.length_headers]), Bool.and_eq_true,
    Path.isPrefixOf_headers hrow, Path.isPrefixOf_headers hcolumn]

end Pivot

namespace Fetch

variable {data : List Row} {answer : ViewQuery → List Row} {f : Fetch}

/-- Without a failure the results have the answer for each grouping that is planned. -/
theorem results_get?_of_answered (hf : f.Possible (fun _ => answer) .empty)
    (hok : ∀ e ∈ f.ends, e.2.rows?.isSome = true) (g : Grouping) :
    (f.request.settle .empty f.ends).2.get? g =
      if g ∈ f.request.groupings then some (answer (f.request.query g)) else none := by
  rw [Request.results_get?_settle]
  by_cases hg : g ∈ f.request.groupings
  · rw [if_pos hg, if_pos hg]
    have hn : (f.ends.map Prod.fst).Nodup :=
      hf.tasks.nodup_iff.mpr (f.request.missing_nodup .empty)
    have hm : g ∈ f.ends.map Prod.fst :=
      hf.tasks.mem_iff.mpr (by rw [Request.missing_empty]; exact hg)
    obtain ⟨⟨g', te⟩, he, rfl⟩ := List.mem_map.mp hm
    obtain ⟨rows, hr⟩ := Option.isSome_iff_exists.mp (hok _ he)
    have ht : f.request.taken? .empty f.ends g' = some rows := by
      rw [Request.taken?, Request.found?, Request.get?_fetched hn he]
      simp [hr]
    have hc : Cache.empty.Coherent fun _ => answer := Cache.coherent_empty
    have ha := Request.eq_answer_of_taken? hc hn hf.answers ht
    rw [ht, ha]
    rfl
  · rw [if_neg hg, if_neg hg]

end Fetch

namespace Pivot

section

variable {p : Pivot} {c : Collapsed} {results : Results} {row column : Path}
  {data : List Row} {answer : ViewQuery → List Row}

theorem isGrouped_answer {g : Grouping} (hanswer : Aggregates data answer)
    (hagg : p.options.aggregated = true)
    (hout : ∀ m ∈ p.measures, m.output ∉ p.rows ∧ m.output ∉ p.columns)
    (hrows : g.rows <+: p.rows) (hcolumns : g.columns <+: p.columns) :
    IsGrouped data g.groupBy (distinctBy Measure.output p.measures)
      (answer (g.query p.measures p.options.aggregated)) := by
  rw [Grouping.query, if_pos hagg, ViewQuery.ofMeasures]
  apply hanswer
  intro m hm hk
  have ho := hout m (mem_of_mem_distinctBy hm)
  rcases List.mem_append.mp hk with hk | hk
  · exact ho.2 (hcolumns.subset hk)
  · exact ho.1 (hrows.subset hk)

theorem cellOf_shows {groupBy : List String} {rows : List Row} {r : Row}
    (hagg : p.options.aggregated = true)
    (h : IsGrouped data groupBy (distinctBy Measure.output p.measures) rows) (hr : r ∈ rows) :
    (p.cellOf r).Shows p.measures r := by
  refine ⟨by simp [cellOf], fun k m hm => ?_⟩
  have hk : ∃ m' ∈ distinctBy Measure.output p.measures, m'.output = m.output :=
    exists_mem_distinctBy (List.mem_of_getElem? hm)
  obtain ⟨m', hm', ho⟩ := hk
  obtain ⟨x, hx⟩ := Option.isSome_iff_exists.mp (h.measured r hr m' hm')
  rw [ho] at hx
  refine ⟨x, hx, ?_⟩
  simp [cellOf, outputKey, hagg, hm, hx]

theorem headers_beq_of_groupBy (r d : Row)
    (h : (r.headers p.full.groupBy == d.headers p.full.groupBy) = true) :
    (r.headers p.columns == d.headers p.columns) = true ∧
      (r.headers p.rows == d.headers p.rows) = true := by
  have hgroupBy : p.full.groupBy = p.columns ++ p.rows := rfl
  have hlength : (r.headers p.columns).length = (d.headers p.columns).length := by
    rw [Row.length_headers, Row.length_headers]
  rw [hgroupBy, Row.headers_append, Row.headers_append, append_beq_append hlength,
    Bool.and_eq_true] at h
  exact h

/-- The rows of the finest grouping have the values of the dataset, so each row of the dataset is
beneath one leaf of either axis as well. -/
theorem showsOnce_of_isGrouped {base : List Row} {measures : List Measure}
    (hbase : results.get? p.full = some base)
    (hgrouped : IsGrouped data p.full.groupBy measures base) (hdata : data ≠ []) :
    (p.table c results).ShowsOnce p data := by
  obtain ⟨d, hd⟩ := List.exists_mem_of_ne_nil data hdata
  obtain ⟨r, hr, -⟩ := hgrouped.row d hd
  have hshows := p.showsOnce_table c hbase (List.ne_nil_of_mem hr)
  constructor
  · exact hshows.rowLeaves
  · exact hshows.columnLeaves
  · exact hgrouped.showOnce (fun r d h => (headers_beq_of_groupBy r d h).2) hshows.row
  · exact hgrouped.showOnce (fun r d h => (headers_beq_of_groupBy r d h).1) hshows.column

/-- The cell of two leaves whose grouping was fetched. -/
theorem cell?_of_isGrouped {i j : Nat} {rows : List Row}
    (hagg : p.options.aggregated = true)
    (hi : (p.table c results).rowLeaves[i]? = some row)
    (hj : (p.table c results).columnLeaves[j]? = some column)
    (hrows : results.get? (.ofPaths row column) = some rows)
    (hgrouped : IsGrouped data (Grouping.ofPaths row column).groupBy
      (distinctBy Measure.output p.measures) rows) :
    (((p.table c results).cell? i j).isSome = true ↔
      ∃ d ∈ data, row.headers.isPrefixOf (d.headers p.rows) = true ∧
        column.headers.isPrefixOf (d.headers p.columns) = true) ∧
    ∀ cell, (p.table c results).cell? i j = some cell →
      ∃ r ∈ rows, (∀ s ∈ rows, (s.headers (Grouping.ofPaths row column).groupBy ==
        column.headers ++ row.headers) = true ↔ s = r) ∧ cell.Shows p.measures r := by
  have hrow := rowKeys_isPrefix (List.mem_of_getElem? hi)
  have hcolumn := columnKeys_isPrefix (List.mem_of_getElem? hj)
  have hcell : (p.table c results).cell? i j =
      (rows.find? fun r => r.headers (Grouping.ofPaths row column).groupBy ==
        column.headers ++ row.headers).map p.cellOf := by
    rw [cell?_table hi hj, Results.rowAt?, hrows]
    simp only [Option.bind_some, ← Path.headers_groupBy_beq]
  rw [hcell]
  constructor
  · rw [Option.isSome_map, hgrouped.find?_isSome_iff]
    simp only [headers_groupBy_iff hrow hcolumn]
  · intro cell hsome
    obtain ⟨r, hr, rfl⟩ := Option.map_eq_some_iff.mp hsome
    obtain ⟨hm, honly⟩ := hgrouped.of_find?_eq_some hr
    exact ⟨r, hm, honly, cellOf_shows hagg hgrouped hm⟩

end

end Pivot

/-- On a fresh aggregator and with a current ticket, a fetch whose queries all succeed gives
results whose table has each row of the dataset beneath one leaf of either axis. For each two leaves
it has the measures of the group that the dataset has beneath both, and an empty cell if it has
none. -/
theorem cells_show_groups (data : List Row) (answer : ViewQuery → List Row)
    (hanswer : Aggregates data answer) (f : Fetch)
    (hagg : f.request.pivot.options.aggregated = true)
    (hout : ∀ m ∈ f.request.pivot.measures,
      m.output ∉ f.request.pivot.rows ∧ m.output ∉ f.request.pivot.columns)
    (hf : f.Possible (fun _ => answer) .empty) (hok : ∀ e ∈ f.ends, e.2.rows?.isSome = true)
    (hcur : f.generation.isCurrent f.ticket = true) :
    ∃ results, (f.run .empty).2 = .ready results ∧
      (data ≠ [] →
        (f.request.pivot.table f.request.collapsed results).ShowsOnce f.request.pivot data) ∧
      ∀ (i j : Nat) (row column : Path),
        (f.request.pivot.table f.request.collapsed results).rowLeaves[i]? = some row →
        (f.request.pivot.table f.request.collapsed results).columnLeaves[j]? = some column →
        (((f.request.pivot.table f.request.collapsed results).cell? i j).isSome = true ↔
          ∃ d ∈ data, row.headers.isPrefixOf (d.headers f.request.pivot.rows) = true ∧
            column.headers.isPrefixOf (d.headers f.request.pivot.columns) = true) ∧
        ∀ cell, (f.request.pivot.table f.request.collapsed results).cell? i j = some cell →
          ∃ r ∈ answer (f.request.query (.ofPaths row column)),
            (∀ s ∈ answer (f.request.query (.ofPaths row column)),
              (s.headers (Grouping.ofPaths row column).groupBy ==
                column.headers ++ row.headers) = true ↔ s = r) ∧
            cell.Shows f.request.pivot.measures r := by
  rw [Fetch.run_of_current hcur]
  have hget := Fetch.results_get?_of_answered hf hok
  refine ⟨_, rfl, ?_⟩
  generalize (f.request.settle .empty f.ends).2 = results at hget ⊢
  have hfull : results.get? f.request.pivot.full =
      some (answer (f.request.query f.request.pivot.full)) := by
    have hplanned : f.request.pivot.full ∈ f.request.groupings := Pivot.full_mem_groupings ..
    rw [hget, if_pos hplanned]
  have hbase := Pivot.isGrouped_answer (g := f.request.pivot.full) hanswer hagg hout
    List.prefix_rfl List.prefix_rfl
  constructor
  · intro hdata
    exact Pivot.showsOnce_of_isGrouped hfull hbase hdata
  · intro i j row column hi hj
    have hgrouped : IsGrouped data (Grouping.ofPaths row column).groupBy
        (distinctBy Measure.output f.request.pivot.measures)
        (answer (f.request.query (.ofPaths row column))) :=
      Pivot.isGrouped_answer hanswer hagg hout (Pivot.rowKeys_isPrefix (List.mem_of_getElem? hi))
        (Pivot.columnKeys_isPrefix (List.mem_of_getElem? hj))
    by_cases hg : Grouping.ofPaths row column ∈ f.request.groupings
    · have hrows : results.get? (.ofPaths row column) =
          some (answer (f.request.query (.ofPaths row column))) := by
        rw [hget, if_pos hg]
      exact Pivot.cell?_of_isGrouped hagg hi hj hrows hgrouped
    · -- A row of the dataset would have planned the grouping of any two leaves.
      have hnone : ∀ d, d ∉ data := by
        intro d hd
        obtain ⟨r, hr, -⟩ := hbase.row d hd
        exact hg (Pivot.ofPaths_mem_groupings hfull (List.ne_nil_of_mem hr)
          (List.mem_of_getElem? hi) (List.mem_of_getElem? hj))
      have hempty : results.get? (.ofPaths row column) = none := by
        rw [hget, if_neg hg]
      rw [Pivot.cell?_table hi hj, Results.rowAt?, hempty]
      simp [hnone]

/-- An executor that counts the rows of each group. -/
def tally (data : List Row) : ViewQuery → List Row
  | .aggregate groupBy measures =>
    (distinctBy (·.headers groupBy) data).map fun d =>
      let size := data.countP (·.headers groupBy == d.headers groupBy)
      measures.map (fun m => (m.output, .number (.ofInt size))) ++
        groupBy.map fun fid => (fid, (d.header fid).toLiteral)
  | .raw _ => data

theorem Row.headers_append_map {r : Row} {groupBy : List String} (d : Row)
    (hr : ∀ fid ∈ groupBy, r.get? fid = none) :
    Row.headers (r ++ groupBy.map fun fid => (fid, (d.header fid).toLiteral)) groupBy =
      d.headers groupBy := by
  apply List.map_congr_left
  intro fid hfid
  have hn : r.lookup fid = none := hr fid hfid
  have hl : (groupBy.map fun fid => (fid, (d.header fid).toLiteral)).lookup fid =
      some (d.header fid).toLiteral :=
    List.lookup_graph (fun fid => (d.header fid).toLiteral) hfid
  rw [header, get?, List.lookup_append, hn, Option.none_or, hl]
  exact HeaderValue.ofLiteral_toLiteral _

theorem aggregates_tally (data : List Row) : Aggregates data (tally data) := by
  intro groupBy measures hout
  have hheaders : ∀ (size : Nat) (d : Row),
      Row.headers (measures.map (fun m => (m.output, Literal.number (.ofInt size))) ++
        groupBy.map fun fid => (fid, (d.header fid).toLiteral)) groupBy = d.headers groupBy := by
    intro size d
    apply Row.headers_append_map
    intro fid hfid
    refine List.lookup_eq_none_iff.mpr fun e he => ?_
    obtain ⟨m, hm, rfl⟩ := List.mem_map.mp he
    have hne : fid ≠ m.output := by
      rintro rfl
      exact hout m hm hfid
    simpa using hne
  constructor
  · intro r hr
    obtain ⟨d, hd, rfl⟩ := List.mem_map.mp hr
    exact ⟨d, mem_of_mem_distinctBy hd, by simp [hheaders]⟩
  · intro d hd
    have hk : ∃ e ∈ distinctBy (·.headers groupBy) data,
        (e.headers groupBy == d.headers groupBy) = true := exists_beq_distinctBy hd
    obtain ⟨e, he, hk⟩ := hk
    exact ⟨_, List.mem_map.mpr ⟨e, he, rfl⟩, by simpa only [hheaders] using hk⟩
  · refine List.pairwise_map.mpr ((distinctBy_pairwise _ data).imp fun h => ?_)
    simpa only [hheaders, BEq.comm] using h
  · intro r hr m hm
    obtain ⟨d, -, rfl⟩ := List.mem_map.mp hr
    have hcolumn (n : Nat) : (m.output, Literal.number (.ofInt n)) ∈
        measures.map fun m => (m.output, Literal.number (.ofInt n)) :=
      List.mem_map.mpr ⟨m, hm, rfl⟩
    refine List.lookup_isSome_iff.mpr ⟨_, List.mem_append_left _ (hcolumn _), ?_⟩
    simp

/-- The sales of the east are collapsed. -/
def salesFetch : Fetch :=
  .answered (fun _ => tally Pivot.salesRows) ⟨Pivot.sales false, Pivot.salesCollapsed, 1⟩ .empty 1

/-- Both sales of the east were made in 2023, and none in 2024. -/
theorem cells_show_sales :
    ∃ results, (salesFetch.run .empty).2 = .ready results ∧
      ((Pivot.sales false).table Pivot.salesCollapsed results).ShowsOnce (Pivot.sales false)
        Pivot.salesRows ∧
      (∀ (i j : Nat) (row column : Path),
        ((Pivot.sales false).table Pivot.salesCollapsed results).rowLeaves[i]? = some row →
        ((Pivot.sales false).table Pivot.salesCollapsed results).columnLeaves[j]? = some column →
        ((((Pivot.sales false).table Pivot.salesCollapsed results).cell? i j).isSome = true ↔
          ∃ d ∈ Pivot.salesRows, row.headers.isPrefixOf (d.headers ["Region", "Category"]) = true ∧
            column.headers.isPrefixOf (d.headers ["Year"]) = true)) ∧
      ((Pivot.sales false).table Pivot.salesCollapsed results).rowLeaves =
        [[⟨"Region", .text "East"⟩], [⟨"Region", .text "West"⟩, ⟨"Category", .text "Office"⟩]] ∧
      ((Pivot.sales false).table Pivot.salesCollapsed results).columnLeaves =
        [[⟨"Year", .text "2023"⟩], [⟨"Year", .text "2024"⟩]] ∧
      ((Pivot.sales false).table Pivot.salesCollapsed results).cell? 0 0 =
        some ⟨[some (.number (.ofInt 2))]⟩ ∧
      ((Pivot.sales false).table Pivot.salesCollapsed results).cell? 0 1 = none := by
  have hok : ∀ e ∈ salesFetch.ends, e.2.rows?.isSome = true := by
    intro e he
    obtain ⟨g, -, rfl⟩ := List.mem_map.mp he
    rfl
  obtain ⟨results, hr, honce, hcells⟩ := cells_show_groups Pivot.salesRows (tally Pivot.salesRows)
    (aggregates_tally _) salesFetch rfl (by decide) (Fetch.possible_answered ..) hok rfl
  have hresults : results = (salesFetch.request.settle .empty salesFetch.ends).2 := by
    rw [Fetch.run_of_current rfl] at hr
    exact (Request.Outcome.ready.inj hr).symm
  have hrows : ((Pivot.sales false).table Pivot.salesCollapsed results).rowLeaves =
      [[⟨"Region", .text "East"⟩], [⟨"Region", .text "West"⟩, ⟨"Category", .text "Office"⟩]] := by
    rw [hresults]
    decide
  have hcolumns : ((Pivot.sales false).table Pivot.salesCollapsed results).columnLeaves =
      [[⟨"Year", .text "2023"⟩], [⟨"Year", .text "2024"⟩]] := by
    rw [hresults]
    decide
  have heast : ((Pivot.sales false).table Pivot.salesCollapsed results).rowLeaves[0]? =
      some [⟨"Region", .text "East"⟩] := by
    rw [hrows]
    rfl
  refine ⟨results, hr, honce (by simp [Pivot.salesRows]), ?_, hrows, hcolumns, ?_, ?_⟩
  · intro i j row column hi hj
    exact (hcells i j row column hi hj).1
  · rw [Pivot.cell?_table heast (by rw [hcolumns]; rfl), hresults]
    rfl
  · rw [Pivot.cell?_table heast (by rw [hcolumns]; rfl), hresults]
    rfl

end ChartQuery
