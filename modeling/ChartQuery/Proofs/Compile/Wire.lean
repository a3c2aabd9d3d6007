import ChartQuery.Proofs.Chart.Finite
import ChartQuery.Proofs.Compile.Transforms
import ChartQuery.Proofs.Plan.Wire

namespace ChartQuery

/-- A list of values is taken over as it is; only a range can bring in other numbers. -/
theorem ShelfRule.isFinite_iff_of_compile {rule : ShelfRule} {c : Condition}
    (hr : rule.IsFinite) (h : rule.compile = .ok c) : c.IsFinite ↔
      ∀ lo hi, c = .range lo hi → lo.isFinite = true ∧ hi.isFinite = true := by
  cases c with
  | range lo hi =>
    constructor
    · intro hc _ _ hrange
      cases hrange
      exact hc
    · exact fun hc => hc lo hi rfl
  | temporalRange lo hi => simp [Condition.IsFinite]
  | oneOf values =>
    have hrule : rule = .oneOf values := by
      cases rule with
      | oneOf values =>
        cases h
        rfl
      | range lo hi => simp [compile, except_bind_eq_ok, pure, Except.pure] at h
      | temporalRange lo hi => simp [compile, except_bind_eq_ok, pure, Except.pure] at h
    rw [hrule] at hr
    refine iff_of_true hr ?_
    intro lo hi hrange
    cases hrange

/-- A condition comes from a rule: a filter without one is refused. -/
theorem ShelfFilter.exists_rule_of_compile {g : ShelfFilter} {f : RowFilter}
    (h : g.compile = .ok f) : ∃ rule ∈ g.rule, rule.compile = .ok f.condition := by
  rw [compile] at h
  split at h
  · next c hc =>
    cases h
    rw [condition] at hc
    split at hc
    · next rule hrule => exact ⟨rule, hrule, hc⟩
    · cases hc
  · cases h

namespace View

variable {v : View} {s : Settings} {g : Stages}

theorem IsFinite.condition_iff {computed : Bool} {fs : List RowFilter} (hv : v.IsFinite)
    (h : v.rowFilters computed = .ok fs) {f : RowFilter} (hf : f ∈ fs) : f.condition.IsFinite ↔
      ∀ lo hi, f.condition = .range lo hi → lo.isFinite = true ∧ hi.isFinite = true := by
  obtain ⟨filter, hfilter, hc⟩ := exists_of_mem_mapM_eq_ok h hf
  obtain ⟨rule, hrule, hc⟩ := ShelfFilter.exists_rule_of_compile hc
  have hfinite := (hv.filters filter (List.mem_filter.1 hfilter).1).rule rule hrule
  exact ShelfRule.isFinite_iff_of_compile hfinite hc

theorem IsFinite.expression_of_mem_transforms (hv : v.IsFinite) (hg : g.AreOf v s)
    {t : Transform} (ht : t ∈ g.transforms) : t.expression.IsFinite := by
  obtain ⟨f, e, huse, he, rfl⟩ := hg.mem_transforms_iff.1 ht
  have hf : f.expression = some e := by
    rw [Field.formula?] at he
    split at he
    · exact he
    · cases he
  exact (hv.allFields f huse.mem_allFields e hf).normalize

/-- A compiled plan is read back as it was written unless a text gave a range an end that is not
finite, or a map in a computed field has a legend. -/
theorem reads_back_iff_of_compile {text : String} {j : Json} {p : Plan}
    (hj : Json.read? text = some j) (hv : ofJson? j = some v) (h : v.compile s = .ok p) :
    Plan.ofJson? p.toJson = some p ↔
      (∀ f ∈ p.filters, ∀ lo hi, f.condition = .range lo hi →
        lo.isFinite = true ∧ hi.isFinite = true) ∧
      ∀ t ∈ p.transforms, t.expression.IsPlain := by
  have hfinite : v.IsFinite := isFinite_of_read? hj hv
  obtain ⟨g, hg, rfl⟩ := compile_eq_ok.1 h
  have hfilters : ∀ f ∈ (g.plan v s).filters, f.condition.IsFinite ↔
      ∀ lo hi, f.condition = .range lo hi → lo.isFinite = true ∧ hi.isFinite = true := by
    rw [g.isLaidOut_plan.filters_eq, List.forall_mem_append]
    exact ⟨fun f => hfinite.condition_iff hg.rawFilters,
      fun f => hfinite.condition_iff hg.computedFilters⟩
  have htransforms : ∀ t ∈ (g.plan v s).transforms, t.expression.IsFinite := by
    rw [g.isLaidOut_plan.transforms_eq]
    exact fun t => hfinite.expression_of_mem_transforms hg
  rw [Plan.ofJson?_toJson_iff]
  constructor
  · rintro ⟨hf, ht⟩
    constructor
    · intro f hp
      exact (hfilters f hp).1 (hf f hp)
    · intro t hp
      exact (ht t hp).2
  · rintro ⟨hf, ht⟩
    constructor
    · intro f hp
      exact (hfilters f hp).2 (hf f hp)
    · intro t hp
      exact ⟨htransforms t hp, ht t hp⟩

section Age

/-- A view that filters ages from zero up to an end that is a text. -/
def ageJson (hi : String) : Json :=
  .obj [("filters", .arr [.obj [("fid", .str "age"), ("analyticType", .str "measure"),
    ("rule", .tagged "range" (.arr [.int 0, .str hi]))]])]

def ageView (hi : String) : View where
  filters := [⟨⟨"age", "", .measure, none, false, none⟩,
    some (.range (.number (.ofInt 0)) (.text hi))⟩]
  allFields := []
  dimensions := []
  measures := []
  aggregates := false
  sort := .unsorted
  folds := []
  limit := none

def agePlan (hi : Binary64) : Plan :=
  ⟨[.filter [⟨"age", .range (.ofInt 0) hi⟩], .view [.raw []]], none⟩

def boundedText : String :=
  "\x7b\"filters\":[\x7b\"fid\":\"age\",\"analyticType\":\"measure\",\"rule\":\x7b\"type\":\"range\",\"value\":[0,\"-0\"]\x7d\x7d]\x7d"

def unboundedText : String :=
  "\x7b\"filters\":[\x7b\"fid\":\"age\",\"analyticType\":\"measure\",\"rule\":\x7b\"type\":\"range\",\"value\":[0,\"inf\"]\x7d\x7d]\x7d"

theorem reads_back_age_bounded :
    Json.read? boundedText = some (ageJson "-0") ∧ ofJson? (ageJson "-0") = some (ageView "-0") ∧
      (ageView "-0").compile .default = .ok (agePlan (.zero true)) ∧
      Plan.ofJson? (agePlan (.zero true)).toJson = some (agePlan (.zero true)) := by
  have hj : Json.read? boundedText = some (ageJson "-0") := by
    unfold Json.read? boundedText
    simp only [String.reduceToList]
    with_unfolding_all rfl
  have hv : ofJson? (ageJson "-0") = some (ageView "-0") := by with_unfolding_all rfl
  have hc : (ageView "-0").compile .default = .ok (agePlan (.zero true)) := by
    with_unfolding_all rfl
  have hlo : (Binary64.ofInt 0).isFinite = true := by decide
  have hhi : (Binary64.zero true).isFinite = true := by decide
  refine ⟨hj, hv, hc, (reads_back_iff_of_compile hj hv hc).2 ⟨?_, ?_⟩⟩
  · intro f hf lo hi hrange
    cases List.mem_singleton.1 hf
    cases hrange
    exact ⟨hlo, hhi⟩
  · intro t ht
    cases ht

/-- An infinite end is written as null, which is no end of a range. -/
theorem not_reads_back_age_unbounded :
    Json.read? unboundedText = some (ageJson "inf") ∧
      ofJson? (ageJson "inf") = some (ageView "inf") ∧
      (ageView "inf").compile .default = .ok (agePlan (.infinity false)) ∧
      Plan.ofJson? (agePlan (.infinity false)).toJson = none := by
  have hj : Json.read? unboundedText = some (ageJson "inf") := by
    unfold Json.read? unboundedText
    simp only [String.reduceToList]
    with_unfolding_all rfl
  have hv : ofJson? (ageJson "inf") = some (ageView "inf") := by with_unfolding_all rfl
  have hc : (ageView "inf").compile .default = .ok (agePlan (.infinity false)) := by
    with_unfolding_all rfl
  have hback : Plan.ofJson? (agePlan (.infinity false)).toJson = none := by with_unfolding_all rfl
  exact ⟨hj, hv, hc, hback⟩

end Age

section Zone

/-- Zones painted hot, the legend given as the field has it and as it is compacted. -/
def zoneOf (used : List UInt32) : Expression :=
  ⟨"paint", [.map ⟨"lon", "lat", (.zero false, .zero false), (.zero false, .zero false), "",
    .ofList [(1, ⟨"hot", none⟩)], used, 0⟩], "zone"⟩

def zoneView : View where
  filters := []
  allFields := [.ofExpression "zone" .dimension (zoneOf [1])]
  dimensions := [.dimension "zone"]
  measures := []
  aggregates := false
  sort := .unsorted
  folds := []
  limit := none

def zonePlan : Plan := ⟨[.transform [⟨"zone", zoneOf []⟩], .view [.raw ["zone"]]], none⟩

-- On its own the transform is read back; inside a step its legend is lost.
example : zoneView.compile .default = .ok zonePlan ∧
    Transform.ofJson? .direct (Transform.mk "zone" (zoneOf [])).toJson =
      some ⟨"zone", zoneOf []⟩ ∧
    Plan.ofJson? zonePlan.toJson = none := by
  refine ⟨?_, ?_, ?_⟩ <;> with_unfolding_all rfl

end Zone

end View

end ChartQuery
