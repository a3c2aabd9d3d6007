import ChartQuery.Proofs.Compile.Transforms

namespace ChartQuery

/-- The expression reads the field, itself or in an expression that is nested in it. -/
inductive Expression.Reads : Expression → String → Prop
  | field {e : Expression} {fid : String} (h : .field fid ∈ e.params) : Reads e fid
  | nested {e d : Expression} {fid : String} (h : .expression d ∈ e.params)
      (hr : Reads d fid) : Reads e fid

namespace Expression

theorem reads_of_mem_references (e : Expression) {fid : String} (h : fid ∈ e.references) :
    e.Reads fid := by
  rw [references_eq, List.mem_flatMap] at h
  obtain ⟨p, hp, h⟩ := h
  cases p with
  | field k =>
    obtain rfl : fid = k := by simpa [paramReferences] using h
    exact .field hp
  | expression d => exact .nested hp (reads_of_mem_references d h)
  | value l => simp [paramReferences] at h
  | constant l => simp [paramReferences] at h
  | format s => simp [paramReferences] at h
  | offset n => simp [paramReferences] at h
  | map m => simp [paramReferences] at h
termination_by sizeOf e
decreasing_by
  have hlt := List.sizeOf_lt_of_mem hp
  cases e
  simp only [Param.expression.sizeOf_spec, mk.sizeOf_spec] at hlt ⊢
  omega

theorem mem_references_iff {e : Expression} {fid : String} :
    fid ∈ e.references ↔ e.Reads fid := by
  constructor
  · exact e.reads_of_mem_references
  · intro h
    induction h with
    | field h =>
      rw [references_eq, List.mem_flatMap]
      exact ⟨_, h, by simp [paramReferences]⟩
    | nested h _ ih =>
      rw [references_eq, List.mem_flatMap]
      exact ⟨_, h, ih⟩

end Expression

def ViewQuery.Names (fid : String) : ViewQuery → Prop
  | .aggregate groupBy measures => fid ∈ groupBy ∨ ∃ m ∈ measures, m.field = fid
  | .raw fields => fid ∈ fields

/-- The step names the field. What a sort step names are columns of the result. -/
def Step.Names (fid : String) : Step → Prop
  | .filter filters => ∃ f ∈ filters, f.fid = fid
  | .transform fields => ∃ t ∈ fields, t.key = fid ∨ t.expression.Reads fid
  | .view queries => ∃ q ∈ queries, q.Names fid
  | .sort .. => False

def Plan.Names (p : Plan) (fid : String) : Prop := ∃ step ∈ p.steps, step.Names fid

theorem Step.exists_mem_kept_names_iff {step : Step} {fid : String} :
    (∃ t ∈ step.kept, t.Names fid) ↔ step.Names fid := by
  cases h : step.isEmpty with
  | false => simp [kept_of_not_isEmpty h]
  | true =>
    rw [kept_of_isEmpty h]
    cases step with
    | sort keys direction => simp [Names]
    | _ =>
      obtain rfl := List.isEmpty_iff.1 h
      simp [Names]

namespace View

instance (v : View) (fid : String) : Decidable (v.IsKnown fid) :=
  inferInstanceAs (Decidable (∃ _ ∈ _, _))

variable {v : View} {s : Settings} {p : Plan} {fid : String}

section Query

/-- The measures that a query has a column for: an aggregate one has only the first for each
output column. -/
def queried (s : Settings) (aggregated : Bool) (measures : List Field) : List Field :=
  if aggregated then distinctBy (fun f => outputKey f.fid (some (aggregation s f))) measures
  else measures

theorem isAggregate_query (shelves : Shelves) (aggregated : Bool) :
    (query s shelves aggregated).isAggregate = aggregated := by
  cases aggregated with
  | true => rfl
  | false => rfl

theorem names_query_iff {shelves : Shelves} {aggregated : Bool} :
    (query s shelves aggregated).Names fid ↔ (∃ f ∈ shelves.dimensions, f.fid = fid) ∨
      ∃ f ∈ queried s aggregated shelves.measures, f.fid = fid := by
  cases aggregated with
  | true =>
    simp [query, queried, ViewQuery.ofMeasures, ViewQuery.Names, distinctBy_map, Measure.new]
  | false => simp [query, queried, ViewQuery.ofFields, ViewQuery.Names, mem_distinct]

/-- Measures that come later take no column from those ahead of them. -/
theorem queried_append (aggregated : Bool) (ms folded : List Field) :
    ∃ rest, rest ⊆ folded ∧
      queried s aggregated (ms ++ folded) = queried s aggregated ms ++ rest := by
  cases aggregated with
  | true =>
    refine ⟨_, ?_, distinctBy_append _ ms folded⟩
    intro f hf
    exact mem_of_mem_distinctBy (List.mem_filter.1 hf).1
  | false => exact ⟨folded, List.Subset.refl _, rfl⟩

end Query

section Shelves

theorem foldedField_eq_ok {agg : Option String} {fold : String} {f : Field}
    (h : v.foldedField s agg fold = .ok f) : ∃ g, v.field? fold = some g ∧ f = { g with agg } := by
  rw [foldedField] at h
  cases hfound : v.field? fold with
  | none => simp [hfound] at h
  | some g =>
    rw [hfound] at h
    cases h
    exact ⟨g, rfl, rfl⟩

theorem exists_fold_of_mem_foldedFields {folded : List Field} (h : v.foldedFields s = .ok folded)
    {f : Field} (hf : f ∈ folded) : ∃ fold ∈ v.folds, ∃ agg, v.foldedField s agg fold = .ok f := by
  rw [foldedFields] at h
  split at h
  · next value _ =>
    split at h
    · obtain ⟨fold, hfold, hf⟩ := exists_of_mem_mapM_eq_ok h hf
      exact ⟨fold, hfold, value.agg, hf⟩
    · cases h
      cases hf
  · cases h
    cases hf

theorem isKnown_of_mem_foldedFields {folded : List Field} (h : v.foldedFields s = .ok folded) :
    ∀ f ∈ folded, v.IsKnown f.fid := by
  intro f hf
  obtain ⟨fold, _, agg, hfold⟩ := exists_fold_of_mem_foldedFields h hf
  obtain ⟨g, hg, rfl⟩ := foldedField_eq_ok hfold
  exact ⟨g, List.mem_of_find?_eq_some hg, rfl⟩

theorem shelves_eq_ok {shelves : Shelves} (h : v.shelves s = .ok shelves) :
    ∃ folded, v.foldedFields s = .ok folded ∧
      shelves.dimensions = v.dimensions.filter (·.fid != s.foldKey) ++
        folded.filter (·.isDimension) ∧
      shelves.measures = v.measures.filter (·.fid != s.foldValue) ++
        folded.filter (!·.isDimension) := by
  rw [View.shelves, except_bind_eq_ok] at h
  obtain ⟨folded, hfolded, h⟩ := h
  cases h
  exact ⟨folded, hfolded, rfl, rfl⟩

/-- The measures on the shelf that a query has a column for, the fold value left out. -/
def queriedMeasures (v : View) (s : Settings) (aggregated : Bool) : List Field :=
  queried s aggregated (v.measures.filter (·.fid != s.foldValue))

/-- Folded fields are known, so it is for the fields on the shelves alone that a query can name an
unknown one. -/
theorem isKnown_of_names_query_iff {shelves : Shelves} (h : v.shelves s = .ok shelves)
    (aggregated : Bool) :
    (∀ fid, (query s shelves aggregated).Names fid → v.IsKnown fid) ↔
      (∀ f ∈ v.dimensions, f.fid ≠ s.foldKey → v.IsKnown f.fid) ∧
        ∀ f ∈ v.queriedMeasures s aggregated, v.IsKnown f.fid := by
  obtain ⟨folded, hfolded, hdimensions, hmeasures⟩ := shelves_eq_ok h
  have hknown := isKnown_of_mem_foldedFields hfolded
  obtain ⟨rest, hrest, hqueried⟩ := queried_append (s := s) aggregated
    (v.measures.filter (·.fid != s.foldValue)) (folded.filter (!·.isDimension))
  have hrest : ∀ f ∈ rest, v.IsKnown f.fid := fun f hf =>
    hknown f (List.mem_filter.1 (hrest hf)).1
  simp only [names_query_iff, hdimensions, hmeasures, hqueried]
  constructor
  · intro hall
    constructor
    · intro f hf hkey
      refine hall f.fid (.inl ⟨f, List.mem_append_left _ ?_, rfl⟩)
      exact List.mem_filter.2 ⟨hf, by simpa using hkey⟩
    · intro f hf
      exact hall f.fid (.inr ⟨f, List.mem_append_left _ hf, rfl⟩)
  · rintro ⟨hd, hm⟩ fid (⟨f, hf, rfl⟩ | ⟨f, hf, rfl⟩)
    · rcases List.mem_append.1 hf with hf | hf
      · obtain ⟨hf, hkey⟩ := List.mem_filter.1 hf
        exact hd f hf (by simpa using hkey)
      · exact hknown f (List.mem_filter.1 hf).1
    · rcases List.mem_append.1 hf with hf | hf
      · exact hm f hf
      · exact hrest f hf

end Shelves

section Plan

variable {g : Stages}

theorem Stages.queries?_plan (g : Stages) : (g.plan v s).queries? = some [g.viewQuery v s] := by
  have hahead : ∀ step ∈ Plan.prepared g.rawFilters g.transforms g.computedFilters,
      step.kind ≠ .view := by
    intro step h
    simp only [Plan.prepared, List.mem_append, Step.mem_kept] at h
    rcases h with (⟨rfl, _⟩ | ⟨rfl, _⟩) | ⟨rfl, _⟩ <;> exact StepKind.noConfusion
  rw [Plan.queries?, g.steps_plan, List.findSome?_append, List.findSome?_eq_none_iff.2]
  · rfl
  · intro step h
    cases step with
    | view queries => exact absurd rfl (hahead _ h)
    | _ => rfl

/-- The fields that a compiled plan names, step by step. -/
theorem Stages.names_plan_iff (g : Stages) : (g.plan v s).Names fid ↔
    ((Step.filter g.rawFilters).Names fid ∨ (Step.filter g.computedFilters).Names fid) ∨
      (Step.transform g.transforms).Names fid ∨ (g.viewQuery v s).Names fid := by
  have hsort : ∀ step ∈ (g.sortStep? v s).toList.flatMap Step.kept, ¬ step.Names fid := by
    intro step h hnames
    have hkind := g.kind_of_mem_sorts step h
    cases step with
    | sort keys direction => exact hnames
    | _ => simp [Step.kind] at hkind
  have hnone : ¬ ∃ step ∈ (g.sortStep? v s).toList.flatMap Step.kept, step.Names fid := by
    rintro ⟨step, hstep, hnames⟩
    exact hsort step hstep hnames
  have hview : (Step.view [g.viewQuery v s]).Names fid ↔ (g.viewQuery v s).Names fid := by
    simp [Step.Names]
  simp only [Plan.Names, g.steps_plan, Plan.prepared, List.mem_append, List.mem_cons, or_and_right,
    exists_or, Step.exists_mem_kept_names_iff, exists_eq_left, hview, hnone, or_false]
  tauto

theorem Stages.AreOf.isKnown_of_names_transform (hg : g.AreOf v s)
    (h : (Step.transform g.transforms).Names fid) : v.IsKnown fid := by
  obtain ⟨t, ht, h⟩ := h
  rcases h with rfl | h
  · obtain ⟨f, e, huse, _, rfl⟩ := hg.mem_transforms_iff.1 ht
    exact ⟨f, huse.mem_allFields, rfl⟩
  · obtain ⟨_, hknown⟩ := checkedTransforms_eq_ok_iff.1 hg.found
    have hmissing := hknown t (hg.transforms_perm.mem_iff.1 ht)
    exact missing?_eq_none_iff.1 hmissing fid (Expression.mem_references_iff.2 h)

theorem Stages.AreOf.names_filters_iff (hg : g.AreOf v s) :
    (Step.filter g.rawFilters).Names fid ∨ (Step.filter g.computedFilters).Names fid ↔
      ∃ f ∈ v.filters, f.fid = fid := by
  have hnames : ∀ fs, (Step.filter fs).Names fid ↔ fid ∈ fs.map RowFilter.fid := by
    simp [Step.Names]
  rw [hnames, hnames, fids_of_rowFilters hg.rawFilters, fids_of_rowFilters hg.computedFilters,
    ← List.mem_append, ← List.map_append, List.mem_map]
  refine exists_congr fun f => and_congr_left fun _ => ?_
  cases hc : f.isComputed <;> simp [hc]

theorem Stages.AreOf.names_plan_iff (hg : g.AreOf v s) : (g.plan v s).Names fid ↔
    (∃ f ∈ v.filters, f.fid = fid) ∨ (Step.transform g.transforms).Names fid ∨
      (g.viewQuery v s).Names fid := by
  rw [← hg.names_filters_iff, g.names_plan_iff]

/-- A compiled plan names no unknown field just when there is none on the shelves, apart from the
fold pair and from measures that have no column of their own. -/
theorem isKnown_of_names_iff_of_compile (h : v.compile s = .ok p) :
    ∃ q, p.queries? = some [q] ∧
      ((∀ fid, p.Names fid → v.IsKnown fid) ↔
        (∀ f ∈ v.filters, v.IsKnown f.fid) ∧
          (∀ f ∈ v.dimensions, f.fid ≠ s.foldKey → v.IsKnown f.fid) ∧
          ∀ f ∈ v.queriedMeasures s q.isAggregate, v.IsKnown f.fid) := by
  obtain ⟨g, hg, rfl⟩ := compile_eq_ok.1 h
  refine ⟨g.viewQuery v s, g.queries?_plan, ?_⟩
  have hquery := isKnown_of_names_query_iff hg.shelves (v.isAggregated g.shelves)
  rw [Stages.viewQuery, isAggregate_query, ← hquery]
  constructor
  · intro hall
    constructor
    · intro f hf
      exact hall f.fid (hg.names_plan_iff.2 (.inl ⟨f, hf, rfl⟩))
    · intro fid hnames
      exact hall fid (hg.names_plan_iff.2 (.inr (.inr hnames)))
  · rintro ⟨hfilters, hqueried⟩ fid hnames
    rcases hg.names_plan_iff.1 hnames with ⟨f, hf, rfl⟩ | htransform | hquery
    · exact hfilters f hf
    · exact hg.isKnown_of_names_transform htransform
    · exact hqueried fid hquery

end Plan

section Region

/-- The margin again, by way of the fold pair, with a filter on the cost. -/
def marginOfCostly : View :=
  { marginView with filters := [⟨.new "cost" .measure, some (.oneOf [.null])⟩] }

def marginOfCostlyPlan : Plan :=
  ⟨.filter [⟨"cost", .oneOf [.null]⟩] :: marginPlan.steps, none⟩

theorem isKnown_of_names_marginOfCostlyPlan :
    marginOfCostly.compile .default = .ok marginOfCostlyPlan ∧
      ∀ fid, marginOfCostlyPlan.Names fid → marginOfCostly.IsKnown fid := by
  have hc : marginOfCostly.compile .default = .ok marginOfCostlyPlan := by with_unfolding_all rfl
  obtain ⟨q, hq, hiff⟩ := isKnown_of_names_iff_of_compile hc
  obtain rfl : ViewQuery.aggregate [] [⟨"margin", "mean", "margin_mean"⟩] = q := by
    simpa [marginOfCostlyPlan, marginPlan, Plan.queries?] using hq
  exact ⟨hc, hiff.2 (by decide)⟩

/-- The dataset has no region, but the region stands on the dimension shelf. -/
def regionView : View where
  filters := []
  allFields := [.new "sales" .measure]
  dimensions := [.dimension "region"]
  measures := []
  aggregates := false
  sort := .unsorted
  folds := []
  limit := none

def regionPlan : Plan := ⟨[.view [.raw ["region"]]], none⟩

theorem not_isKnown_region :
    regionView.compile .default = .ok regionPlan ∧
      ¬ ∀ fid, regionPlan.Names fid → regionView.IsKnown fid := by
  have hc : regionView.compile .default = .ok regionPlan := by with_unfolding_all rfl
  refine ⟨hc, fun hall => ?_⟩
  have hnames : regionPlan.Names "region" := by
    simp [regionPlan, Plan.Names, Step.Names, ViewQuery.Names]
  exact absurd (hall "region" hnames) (by decide)

end Region

end View

end ChartQuery
