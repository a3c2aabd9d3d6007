import ChartQuery.Plan.Wire
import ChartQuery.Proofs.Expression.Wire
import ChartQuery.Proofs.Plan.Layout

namespace ChartQuery

open Json (str?)

namespace Condition

def IsFinite : Condition → Prop
  | oneOf values => ∀ l ∈ values, l.IsFinite
  | range lo hi => lo.isFinite = true ∧ hi.isFinite = true
  | temporalRange _ _ => True

theorem ofJson?_tagged {passage : Passage} {tag : String} {v : Json} :
    ofJson? passage (.tagged tag v) =
      match tag with
      | "one of" => (Json.list? Literal.ofJson? v).map .oneOf
      | "range" => (Json.pair? Json.real? Json.real? v).map fun (lo, hi) => .range lo hi
      | "temporal range" =>
        (Json.pair? Json.int64? Json.int64? v).map fun (lo, hi) => .temporalRange lo hi
      | _ => none := by
  rw [ofJson?, Json.get?_value_tagged, Json.required_type_tagged]
  split <;> simp_all

theorem ofJson?_toJson_iff {passage : Passage} {c : Condition} :
    ofJson? passage c.toJson = some c ↔ c.IsFinite := by
  cases c with
  | oneOf values =>
    simp [toJson, ofJson?_tagged, IsFinite, Json.list?_map_eq_some_iff, Literal.ofJson?_toJson_iff]
  | range lo hi =>
    simp [toJson, ofJson?_tagged, IsFinite, Json.pair?, Option.bind_eq_some_iff,
      Json.real?_ofReal_eq_some_iff]
  | temporalRange lo hi => simp [toJson, ofJson?_tagged, IsFinite, Json.pair?, Json.int64?_toInt]

end Condition

theorem RowFilter.ofJson?_toJson_iff {passage : Passage} {f : RowFilter} :
    ofJson? passage f.toJson = some f ↔ f.condition.IsFinite := by
  rw [← @Condition.ofJson?_toJson_iff passage]
  simp only [ofJson?, toJson, Json.required_cons, String.reduceEq, if_true, if_false, str?]
  cases f
  simp [Option.bind_eq_some_iff]

theorem Transform.ofJson?_toJson_iff {passage : Passage} {t : Transform} :
    ofJson? passage t.toJson = some t ↔
      t.expression.IsFinite ∧ (passage = .held → t.expression.IsPlain) := by
  rw [← Expression.ofJson?_toJson_iff]
  simp only [ofJson?, toJson, Json.required_cons, String.reduceEq, if_true, if_false, str?]
  cases t
  simp [Option.bind_eq_some_iff]

theorem Measure.ofJson?_toJson (m : Measure) : ofJson? m.toJson = some m := rfl

theorem ViewQuery.ofJson?_toJson (passage : Passage) (q : ViewQuery) :
    ofJson? passage q.toJson = some q := by
  cases q with
  | aggregate groupBy measures =>
    have hmeasures := Json.list?_map Measure.toJson Measure.ofJson?_toJson measures
    simp [ofJson?, toJson, tag?, Json.list?_strings, hmeasures]
  | raw fields => simp [ofJson?, toJson, tag?, Json.list?_strings]

theorem SortDirection.ofJson?_toJson (passage : Passage) (d : SortDirection) :
    ofJson? passage d.toJson = some d := by
  cases d <;> cases passage <;> rfl

theorem StepKind.ofWord?_word (k : StepKind) : ofWord? k.word = some k := by
  cases k <;> rfl

/-- What a step holds is read as held, whatever the step is. -/
theorem Step.ofJson?_toJson_iff {s : Step} :
    ofJson? s.toJson = some s ↔ (∀ f ∈ s.filters, f.condition.IsFinite) ∧
      ∀ t ∈ s.transforms, t.expression.IsFinite ∧ t.expression.IsPlain := by
  have hkind : (s.toJson.required "type" str?).bind StepKind.ofWord? = some s.kind :=
    StepKind.ofWord?_word s.kind
  rw [ofJson?, hkind]
  cases s with
  | filter filters =>
    simp [kind, toJson, payload, Step.filters, Step.transforms, Json.list?_map_eq_some_iff,
      RowFilter.ofJson?_toJson_iff]
  | transform fields =>
    simp [kind, toJson, payload, Step.filters, Step.transforms, Json.list?_map_eq_some_iff,
      Transform.ofJson?_toJson_iff]
  | view queries =>
    have hqueries := Json.list?_map ViewQuery.toJson (ViewQuery.ofJson?_toJson .held) queries
    simp [kind, toJson, payload, Step.filters, Step.transforms, hqueries]
  | sort keys direction =>
    simp [kind, toJson, payload, Step.filters, Step.transforms, Json.list?_strings,
      SortDirection.ofJson?_toJson]

namespace Plan

theorem optional_limit_toJson (p : Plan) :
    p.toJson.optional "limit" Json.uint64? = some p.limit := by
  have hmember : p.toJson.get? "limit" = p.limit.map fun n => .int n.toNat := by simp [toJson]
  exact (Json.optional_eq_some_iff hmember (by simp)).2 fun n _ => Json.uint64?_toNat n

theorem required_workflow_toJson (p : Plan) :
    p.toJson.required "workflow" (Json.list? Step.ofJson?) =
      Json.list? Step.ofJson? (.arr (p.steps.map Step.toJson)) := by
  obtain ⟨steps, limit⟩ := p
  cases limit <;> rfl

theorem ofJson?_toJson_iff_steps {p : Plan} :
    ofJson? p.toJson = some p ↔ ∀ s ∈ p.steps, Step.ofJson? s.toJson = some s := by
  rw [ofJson?, required_workflow_toJson, optional_limit_toJson, ← Json.list?_map_eq_some_iff]
  cases p
  simp [Option.bind_eq_some_iff]

theorem ofJson?_toJson_iff {p : Plan} :
    ofJson? p.toJson = some p ↔ (∀ f ∈ p.filters, f.condition.IsFinite) ∧
      ∀ t ∈ p.transforms, t.expression.IsFinite ∧ t.expression.IsPlain := by
  rw [ofJson?_toJson_iff_steps, filters, transforms, List.forall_mem_flatMap,
    List.forall_mem_flatMap]
  simp only [Step.ofJson?_toJson_iff]
  constructor
  · intro h
    constructor
    · intro s hs
      exact (h s hs).1
    · intro s hs
      exact (h s hs).2
  · rintro ⟨hfilters, htransforms⟩ s hs
    exact ⟨hfilters s hs, htransforms s hs⟩

end Plan

end ChartQuery
