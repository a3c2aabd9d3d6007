import ChartQuery.Proofs.Compile.Shape
import ChartQuery.Proofs.Plan.Kinds

namespace ChartQuery

/-- The plan filters twice with no transform between. -/
def Plan.IsCrowded (p : Plan) : Prop := p.kinds.count .filter = 2 ∧ .transform ∉ p.kinds

instance (p : Plan) : Decidable p.IsCrowded := inferInstanceAs (Decidable (_ ∧ _))

namespace View.Stages

variable {v : View} {s : Settings} (g : Stages)

theorem kinds_kept_sublist (step : Step) : (step.kept.map Step.kind).Sublist [step.kind] := by
  cases h : step.isEmpty with
  | true => simp [Step.kept_of_isEmpty h]
  | false => simp [Step.kept_of_not_isEmpty h]

/-- The kinds of the steps ahead of the query. -/
def kindsAhead : List StepKind :=
  (Plan.prepared g.rawFilters g.transforms g.computedFilters).map Step.kind

/-- The kinds of the query and what follows it. -/
def kindsBehind (v : View) (s : Settings) : List StepKind :=
  .view :: ((g.sortStep? v s).toList.flatMap Step.kept).map Step.kind

theorem kinds_plan : (g.plan v s).kinds = g.kindsAhead ++ g.kindsBehind v s := by
  rw [Plan.kinds, steps_plan, List.map_append]
  rfl

theorem kindsAhead_sublist : g.kindsAhead.Sublist [.filter, .transform, .filter] := by
  rw [kindsAhead, Plan.prepared, List.map_append, List.map_append]
  exact ((kinds_kept_sublist _).append (kinds_kept_sublist _)).append (kinds_kept_sublist _)

theorem kindsBehind_sublist : (g.kindsBehind v s).Sublist [.view, .sort] := by
  rw [kindsBehind, List.cons_sublist_cons]
  cases hs : g.sortStep? v s with
  | none => simp
  | some step =>
    have hk : step.kind = .sort := kind_of_sortStep? hs
    simpa [hk] using kinds_kept_sublist step

theorem kind_notMem_kindsBehind (t : Graft) : t.kind ∉ g.kindsBehind v s := by
  intro h
  have hmem := g.kindsBehind_sublist.subset h
  cases t <;> simp [Graft.kind] at hmem

theorem isCrowded_iff : (g.plan v s).IsCrowded ↔ g.kindsAhead = [.filter, .filter] := by
  have hall : ∀ kinds ∈ [StepKind.filter, .transform, .filter].sublists,
      kinds.count .filter = 2 ∧ .transform ∉ kinds ↔ kinds = [.filter, .filter] := by
    decide
  have hfilter : .filter ∉ g.kindsBehind v s := g.kind_notMem_kindsBehind (.filters [])
  have htransform : .transform ∉ g.kindsBehind v s := g.kind_notMem_kindsBehind (.transforms [])
  rw [Plan.IsCrowded, kinds_plan, List.count_append, List.count_eq_zero.2 hfilter,
    List.mem_append, or_iff_left htransform, Nat.add_zero]
  exact hall _ (List.mem_sublists.2 g.kindsAhead_sublist)

theorem count_view_kindsBehind : (g.kindsBehind v s).count .view = 1 := by
  have hsorts : StepKind.view ∉
      ((g.sortStep? v s).toList.flatMap Step.kept).map Step.kind := by
    intro h
    obtain ⟨step, hs, hk⟩ := List.mem_map.1 h
    rw [g.kind_of_mem_sorts step hs] at hk
    cases hk
  rw [kindsBehind, List.count_cons_self, List.count_eq_zero.2 hsorts]

/-- Whatever is added, the query and what follows it stay, and ahead of them the kinds are in
order unless a transform had to come ahead of two filters. -/
theorem kinds_addAll_plan (gs : List Graft) : ∃ ahead,
    ((g.plan v s).addAll gs).kinds = ahead ++ g.kindsBehind v s ∧
      (¬ ((g.plan v s).IsCrowded ∧ gs.any Graft.addsTransforms) →
        ahead.Sublist [.filter, .transform, .filter]) ∧
      ((g.plan v s).IsCrowded ∧ gs.any Graft.addsTransforms →
        ahead = .transform :: g.kindsAhead) := by
  by_cases hcrowded : (g.plan v s).IsCrowded
  · have hahead : g.kindsAhead = [.filter, .filter] := g.isCrowded_iff.1 hcrowded
    have hfilter : .filter ∈ (g.plan v s).kinds := by
      rw [kinds_plan, hahead]
      exact List.mem_cons_self
    have hkinds := Plan.kinds_addAll_of_filter hfilter gs
    cases hadds : gs.any Graft.addsTransforms with
    | false =>
      refine ⟨g.kindsAhead, ?_, fun _ => g.kindsAhead_sublist, ?_⟩
      · rw [hkinds, hadds, g.kinds_plan]
        rfl
      · simp
    | true =>
      refine ⟨.transform :: g.kindsAhead, ?_, ?_, fun _ => rfl⟩
      · rw [hkinds, hadds, if_pos rfl, StepKind.ensure, if_neg hcrowded.2, g.kinds_plan]
        rfl
      · intro hnot
        exact absurd ⟨hcrowded, rfl⟩ hnot
  · have hroom : StepKind.HaveRoom g.kindsAhead := by
      refine ⟨g.kindsAhead_sublist, ?_⟩
      intro h
      exact hcrowded (g.isCrowded_iff.2 h)
    obtain ⟨ahead, hahead, hkinds⟩ := Plan.kinds_addAll_of_haveRoom g.kinds_plan hroom
      g.kind_notMem_kindsBehind gs
    refine ⟨ahead, hkinds, ?_, ?_⟩
    · intro _
      exact hahead.sublist
    · intro h
      exact absurd h.1 hcrowded

end View.Stages

namespace View

/-- A plan keeps its one query and gets no empty step. Its steps stay in order, or a transform was
added to a crowded plan and comes first. -/
theorem kinds_addAll_of_compile {v : View} {s : Settings} {p : Plan} (h : v.compile s = .ok p)
    (gs : List Graft) : (p.addAll gs).kinds.count .view = 1 ∧
      (∀ step ∈ (p.addAll gs).steps, step.isEmpty = false) ∧
      (¬ (p.IsCrowded ∧ gs.any Graft.addsTransforms) →
        (p.addAll gs).kinds.Sublist StepKind.canonical) ∧
      (p.IsCrowded ∧ gs.any Graft.addsTransforms →
        (p.addAll gs).kinds = .transform :: p.kinds) := by
  obtain ⟨g, _, rfl⟩ := compile_eq_ok.1 h
  obtain ⟨ahead, hkinds, horder, hlate⟩ := g.kinds_addAll_plan (v := v) (s := s) gs
  refine ⟨?_, ?_, ?_, ?_⟩
  · have hview : StepKind.view ∉ ahead := by
      by_cases hx : (g.plan v s).IsCrowded ∧ gs.any Graft.addsTransforms
      · rw [hlate hx, g.isCrowded_iff.1 hx.1]
        decide
      · intro hmem
        simpa using (horder hx).subset hmem
    rw [hkinds, List.count_append, List.count_eq_zero.2 hview, g.count_view_kindsBehind]
  · exact (g.plan v s).not_isEmpty_of_mem_addAll g.not_isEmpty_of_mem_plan gs
  · intro hx
    rw [hkinds]
    exact (horder hx).append g.kindsBehind_sublist
  · intro hx
    rw [hkinds, hlate hx, g.kinds_plan]
    rfl

section Crowded

/-- A filter on a field as it is, and one on a computed field that the dataset does not have. -/
def crowdedView : View where
  filters := [⟨.dimension "region", some (.oneOf [.text "East"])⟩,
    ⟨{ Field.dimension "grade" with computed := true }, some (.oneOf [.text "A"])⟩]
  allFields := [.dimension "region", .measure "sales" "sum"]
  dimensions := [.dimension "region"]
  measures := []
  aggregates := false
  sort := .unsorted
  folds := []
  limit := none

def crowdedPlan : Plan :=
  ⟨[.filter [⟨"region", .oneOf [.text "East"]⟩], .filter [⟨"grade", .oneOf [.text "A"]⟩],
    .view [.raw ["region"]]], none⟩

def doubled : Transform := ⟨"doubled", ⟨"+", [.field "sales", .field "sales"], "doubled"⟩⟩

theorem kinds_addAll_crowded : crowdedView.compile .default = .ok crowdedPlan ∧
    (crowdedPlan.addAll [.filters [⟨"sales", .oneOf []⟩]]).kinds.Sublist StepKind.canonical ∧
      (crowdedPlan.addAll [.filters [⟨"sales", .oneOf []⟩], .transforms [doubled]]).kinds =
        [.transform, .filter, .filter, .view] := by
  have hc : crowdedView.compile .default = .ok crowdedPlan := by with_unfolding_all rfl
  have hcrowded : crowdedPlan.IsCrowded := by decide
  refine ⟨hc, ?_, ?_⟩
  · exact (kinds_addAll_of_compile hc _).2.2.1 (by simp [Graft.addsTransforms])
  · exact (kinds_addAll_of_compile hc _).2.2.2 ⟨hcrowded, rfl⟩

/-- The transform that is added to a crowded plan leaves two filters behind it. -/
theorem not_canonical_crowded : crowdedView.compile .default = .ok crowdedPlan ∧
    ¬ (crowdedPlan.addAll [.transforms [doubled]]).kinds.Sublist StepKind.canonical := by
  have hc : crowdedView.compile .default = .ok crowdedPlan := by with_unfolding_all rfl
  exact ⟨hc, by decide⟩

end Crowded

end View

end ChartQuery
