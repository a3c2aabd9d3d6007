import ChartQuery.Proofs.Compile.Transforms

namespace ChartQuery

/-- What the steps of a plan are made of. -/
structure Plan.Parts where
  raw : List RowFilter
  transforms : List Transform
  computed : List RowFilter
  query : ViewQuery
  sorts : List Step

namespace Plan.Parts

/-- The steps in their order, those that do nothing left out. -/
def steps (a : Parts) : List Step :=
  prepared a.raw a.transforms a.computed ++ .view [a.query] :: a.sorts

/-- The filters are those of the view in the order of its shelf, and there are transforms just when
the keys use a computed field. -/
structure Serve (a : Parts) (v : View) (keys : List String) : Prop where
  raw : (v.filters.filter (!·.isComputed)).map ShelfFilter.compile = a.raw.map .ok
  computed : (v.filters.filter (·.isComputed)).map ShelfFilter.compile = a.computed.map .ok
  transforms_eq_nil_iff : a.transforms = [] ↔ ∀ f, ¬ v.Uses keys f
  kind_of_mem_sorts : ∀ step ∈ a.sorts, step.kind = .sort
  length_sorts_le : a.sorts.length ≤ 1

/-- Each filter of the view is compiled once. -/
theorem Serve.filters_perm {a : Parts} {v : View} {keys : List String} (h : a.Serve v keys) :
    ((a.raw ++ a.computed).map Except.ok).Perm (v.filters.map ShelfFilter.compile) := by
  have hsplit : (v.filters.filter (!·.isComputed) ++ v.filters.filter (·.isComputed)).Perm
      v.filters := by
    simpa using List.filter_append_perm (fun f : ShelfFilter => !f.isComputed) v.filters
  rw [List.map_append, ← h.raw, ← h.computed, ← List.map_append]
  exact hsplit.map ShelfFilter.compile

end Plan.Parts

namespace View

variable {v : View} {s : Settings} {p : Plan}

namespace Stages

variable {g : Stages}

def parts (v : View) (s : Settings) (g : Stages) : Plan.Parts where
  raw := g.rawFilters
  transforms := g.transforms
  computed := g.computedFilters
  query := g.viewQuery v s
  sorts := (g.sortStep? v s).toList.flatMap Step.kept

theorem length_sorts_parts_le (g : Stages) : (g.parts v s).sorts.length ≤ 1 := by
  rw [parts]
  cases g.sortStep? v s with
  | none => simp
  | some step => cases h : step.isEmpty <;> simp [Step.kept, h]

theorem AreOf.transforms_eq_nil_iff (hg : g.AreOf v s) :
    g.transforms = [] ↔ ∀ f, ¬ v.Uses (v.keys g.shelves) f := by
  rw [List.eq_nil_iff_forall_not_mem]
  constructor
  · intro hnone f huse
    obtain ⟨e, he⟩ := huse.exists_formula
    exact hnone (transformOf f e) (hg.mem_transforms_iff.2 ⟨f, e, huse, he, rfl⟩)
  · intro hnone t ht
    obtain ⟨f, _, huse, _, _⟩ := hg.mem_transforms_iff.1 ht
    exact hnone f huse

theorem AreOf.serve_parts (hg : g.AreOf v s) : (g.parts v s).Serve v (v.keys g.shelves) where
  raw := by
    have h := mapM_eq_ok_iff.1 hg.rawFilters
    simpa [parts] using h
  computed := by
    have h := mapM_eq_ok_iff.1 hg.computedFilters
    simpa [parts] using h
  transforms_eq_nil_iff := hg.transforms_eq_nil_iff
  kind_of_mem_sorts := g.kind_of_mem_sorts
  length_sorts_le := g.length_sorts_parts_le

end Stages

/-- A compiled plan has the steps that the view asks for, in order and none of them empty, and
each filter of the view stands in it once. -/
theorem steps_of_compile (h : v.compile s = .ok p) :
    ∃ (shelves : Shelves) (a : Plan.Parts), v.shelves s = .ok shelves ∧
      a.Serve v (v.keys shelves) ∧ p.steps = a.steps ∧
      (∀ step ∈ p.steps, step.isEmpty = false) ∧ p.limit = v.limit ∧
      (p.filters.map Except.ok).Perm (v.filters.map ShelfFilter.compile) := by
  obtain ⟨g, hg, rfl⟩ := compile_eq_ok.1 h
  have hserve : (g.parts v s).Serve v (v.keys g.shelves) := hg.serve_parts
  refine ⟨g.shelves, g.parts v s, hg.shelves, hserve, g.steps_plan, g.not_isEmpty_of_mem_plan,
    rfl, ?_⟩
  rw [g.isLaidOut_plan.filters_eq]
  exact hserve.filters_perm

section Graded

/-- The grade is marked as computed, but the dataset does not compute it. -/
def gradedView : View where
  filters := [⟨{ Field.dimension "grade" with computed := true }, some (.oneOf [.text "A"])⟩,
    ⟨.dimension "region", some (.oneOf [.text "East"])⟩]
  allFields := [.dimension "region", .measure "sales" "sum",
    .ofExpression "profit" .measure profitOf]
  dimensions := [.dimension "region"]
  measures := [.measure "sales" "sum"]
  aggregates := true
  sort := .descending
  folds := []
  limit := some 3

def gradedPlan : Plan where
  steps := [.filter [⟨"region", .oneOf [.text "East"]⟩], .filter [⟨"grade", .oneOf [.text "A"]⟩],
    .view [.aggregate ["region"] [⟨"sales", "sum", "sales_sum"⟩]], .sort ["sales_sum"] .descending]
  limit := some 3

/-- The two filter steps are next to each other and stay two. -/
theorem steps_of_graded : gradedView.compile .default = .ok gradedPlan ∧
    ∃ (shelves : Shelves) (a : Plan.Parts), gradedView.shelves .default = .ok shelves ∧
      a.Serve gradedView (gradedView.keys shelves) ∧ gradedPlan.steps = a.steps ∧
      (∀ step ∈ gradedPlan.steps, step.isEmpty = false) ∧ gradedPlan.limit = gradedView.limit ∧
      (gradedPlan.filters.map Except.ok).Perm (gradedView.filters.map ShelfFilter.compile) := by
  have hc : gradedView.compile .default = .ok gradedPlan := by with_unfolding_all rfl
  exact ⟨hc, steps_of_compile hc⟩

end Graded

end View

end ChartQuery
