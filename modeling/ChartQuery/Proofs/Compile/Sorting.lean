import ChartQuery.Proofs.Compile.Unfolding

namespace ChartQuery

theorem SortMode.direction?_eq_none_iff {m : SortMode} : m.direction? = none ↔ m = .unsorted := by
  cases m with
  | unsorted => simp [direction?]
  | ascending => simp [direction?]
  | descending => simp [direction?]

/-- The keys are those of the measures in the result of the query, each once. -/
structure ViewQuery.IsSortedBy (q : ViewQuery) (shelves : Shelves) (keys : List String) : Prop where
  nodup : keys.Nodup
  aggregate : ∀ groupBy measures, q = .aggregate groupBy measures →
    keys = measures.map Measure.output
  raw : ∀ fields, q = .raw fields →
    Firsts id (shelves.measures.map Field.fid) keys ∧ keys ⊆ fields

namespace View

variable {v : View} {s : Settings} {p : Plan} {shelves : Shelves} {aggregated : Bool}
  {keys : List String} {direction : SortDirection}

theorem sortKeys_ne_nil_iff : sortKeys s shelves aggregated ≠ [] ↔ shelves.measures ≠ [] := by
  rw [sortKeys]
  cases shelves.measures with
  | nil => simp [distinct, distinctBy]
  | cons f fs => simp [distinct_cons]

/-- The measures of an aggregate query are told apart by the column that is sorted by. -/
theorem sortKeys_aggregated : sortKeys s shelves true =
    (queriedFor s shelves.measures).map Measure.output := by
  have hcolumns : (shelves.measures.map fun f => outputKey f.fid (some (aggregation s f))) =
      (shelves.measures.map (measureOf s)).map Measure.output := by
    rw [List.map_map]
    rfl
  rw [sortKeys, queriedFor, distinct]
  simp only [if_true]
  rw [hcolumns, distinctBy_map]
  rfl

theorem sortKeys_raw : sortKeys s shelves false = distinct (shelves.measures.map Field.fid) := by
  simp only [sortKeys, Bool.false_eq_true, if_false]

theorem isSortedBy_sortKeys (s : Settings) (shelves : Shelves) (aggregated : Bool) :
    (query s shelves aggregated).IsSortedBy shelves (sortKeys s shelves aggregated) where
  nodup := distinct_nodup _
  aggregate := by
    intro groupBy measures hq
    cases aggregated with
    | false => cases hq
    | true =>
      cases hq
      exact sortKeys_aggregated
  raw := by
    intro fields hq
    cases aggregated with
    | true => cases hq
    | false =>
      cases hq
      rw [sortKeys_raw]
      refine ⟨firsts_distinctBy _ _, ?_⟩
      intro key hkey
      rw [mem_distinct] at hkey ⊢
      exact List.mem_append_right _ hkey

theorem sortStep?_eq_some_iff : v.sortStep? s shelves aggregated = some (.sort keys direction) ↔
    (∃ n, v.limit = some n ∧ 0 < n) ∧ v.sort.direction? = some direction ∧
      keys = sortKeys s shelves aggregated := by
  have hlimit : v.limit.any (0 < ·) = true ↔ ∃ n, v.limit = some n ∧ 0 < n := by
    cases v.limit with
    | none => simp
    | some n => simp
  rw [sortStep?, ← hlimit]
  cases v.limit.any (0 < ·) with
  | false => simp
  | true => simp [eq_comm, and_comm]

theorem Stages.sort_mem_plan_iff (g : Stages) : .sort keys direction ∈ (g.plan v s).steps ↔
    g.sortStep? v s = some (.sort keys direction) ∧ keys ≠ [] := by
  simp only [plan, Plan.ofSteps, List.mem_filter, List.mem_filterMap, id, exists_eq_right,
    List.mem_cons, Option.some.injEq, reduceCtorEq, false_or, List.not_mem_nil, or_false,
    Step.isEmpty, Bool.not_eq_true', List.isEmpty_eq_false_iff]
  rw [eq_comm]

theorem Stages.sort_mem_plan_iff_view (g : Stages) :
    .sort keys direction ∈ (g.plan v s).steps ↔
      ((∃ n, v.limit = some n ∧ 0 < n) ∧ v.sort.direction? = some direction ∧
        keys = sortKeys s g.shelves (v.isAggregated g.shelves)) ∧ keys ≠ [] := by
  rw [g.sort_mem_plan_iff, Stages.sortStep?, sortStep?_eq_some_iff]

theorem Stages.isSortedBy_of_mem_plan {g : Stages}
    (h : .sort keys direction ∈ (g.plan v s).steps) :
    (g.viewQuery v s).IsSortedBy g.shelves keys := by
  obtain ⟨⟨-, -, rfl⟩, -⟩ := g.sort_mem_plan_iff_view.1 h
  exact isSortedBy_sortKeys s g.shelves _

/-- A compiled plan sorts just if the view has a sort mode, a positive limit and a measure, and it
sorts by the columns that its measures have in the result of the query. -/
theorem sorts_of_compile (h : v.compile s = .ok p) : ∃ shelves q, v.Unfolds s shelves ∧
    p.queries? = some [q] ∧
    ((∃ keys direction, .sort keys direction ∈ p.steps) ↔
      v.sort ≠ .unsorted ∧ (∃ n, v.limit = some n ∧ 0 < n) ∧ shelves.measures ≠ []) ∧
    ∀ keys direction, .sort keys direction ∈ p.steps →
      v.sort.direction? = some direction ∧ q.IsSortedBy shelves keys := by
  obtain ⟨g, rfl, hunfolds, hq⟩ := exists_stages_of_compile h
  refine ⟨g.shelves, g.viewQuery v s, hunfolds, hq, ?_, ?_⟩
  · simp only [g.sort_mem_plan_iff_view, Ne, ← SortMode.direction?_eq_none_iff]
    constructor
    · intro hsorts
      obtain ⟨keys, direction, ⟨hlimit, hdirection, rfl⟩, hkeys⟩ := hsorts
      refine ⟨?_, hlimit, sortKeys_ne_nil_iff.1 hkeys⟩
      rw [hdirection]
      exact Option.some_ne_none direction
    · intro hview
      obtain ⟨hsorted, hlimit, hmeasures⟩ := hview
      obtain ⟨direction, hdirection⟩ := Option.ne_none_iff_exists'.1 hsorted
      exact ⟨_, direction, ⟨hlimit, hdirection, rfl⟩, sortKeys_ne_nil_iff.2 hmeasures⟩
  · intro keys direction hmem
    obtain ⟨⟨-, hdirection, -⟩, -⟩ := g.sort_mem_plan_iff_view.1 hmem
    exact ⟨hdirection, Stages.isSortedBy_of_mem_plan hmem⟩

theorem sorts_of_foldedView : foldedView.compile .default = .ok foldedPlan ∧
    ∃ shelves, foldedView.Unfolds .default shelves ∧ shelves.measures ≠ [] ∧
      (ViewQuery.aggregate ["region", "channel"] foldedMeasures).IsSortedBy shelves
        ["units_max", "cost_sum", "sales_mean", "cost_mean"] := by
  obtain ⟨shelves, q, hunfolds, hq, hsorts, hkeys⟩ := sorts_of_compile compile_foldedView
  obtain rfl : ViewQuery.aggregate ["region", "channel"] foldedMeasures = q := by
    simpa [foldedPlan, Plan.queries?] using hq
  have hmem : .sort ["units_max", "cost_sum", "sales_mean", "cost_mean"] .descending ∈
      foldedPlan.steps := List.mem_cons_of_mem _ (List.mem_singleton_self _)
  obtain ⟨-, -, hmeasures⟩ := hsorts.1 ⟨_, _, hmem⟩
  exact ⟨compile_foldedView, shelves, hunfolds, hmeasures, (hkeys _ _ hmem).2⟩

end View

end ChartQuery
