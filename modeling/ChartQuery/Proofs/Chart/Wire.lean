import ChartQuery.Proofs.Chart.Finite
import ChartQuery.Proofs.Expression.Wire
import ChartQuery.Proofs.Plan.Wire
import Mathlib.Data.Option.Basic

namespace ChartQuery

open Json (required withDefault record str? bool? uint64?)

theorem Role.ofJson?_toJson (passage : Passage) (x : Role) :
    ofJson? passage x.toJson = some x := by
  cases x <;> cases passage <;> rfl

theorem SortMode.ofJson?_toJson (x : SortMode) : ofJson? x.toJson = some x := by
  cases x <;> rfl

theorem ShelfRule.toJson_ne_null (rule : ShelfRule) : rule.toJson ≠ .null := by
  cases rule <;> simp [toJson, Json.tagged]

namespace Field

/-- No map in the expression of the field has a legend. -/
def IsPlain (f : Field) : Prop := ∀ e ∈ f.expression, e.IsPlain

variable {passage : Passage} {f : Field} {extra : List (String × Option Json)}

/-- A field is read from its own members, whatever other members follow them. -/
theorem ofJson?_record_append_iff
    (h : ∀ name ∈ f.members.map Prod.fst, (record extra).get? name = none) :
    ofJson? passage (record (f.members ++ extra)) = some f ↔
      f.IsFinite ∧ (passage = .held → f.IsPlain) := by
  simp only [members, List.map_cons, List.map_nil, List.forall_mem_cons] at h
  obtain ⟨-, -, -, hagg, -, hexpression, -⟩ := h
  have hfid : (record (f.members ++ extra)).required "fid" str? = some f.fid := by
    simp [required, members, str?]
  have hname : (record (f.members ++ extra)).withDefault "name" "" str? = some f.name := by
    simp [withDefault, members, str?]
  have hrole : (record (f.members ++ extra)).required "analyticType" (Role.ofJson? passage) =
      some f.role := by
    simp [required, members, Role.ofJson?_toJson]
  have hagg : (record (f.members ++ extra)).optional "aggName" str? = some f.agg := by
    have hmember : (record (f.members ++ extra)).get? "aggName" = f.agg.map .str := by
      simp [members, hagg]
    exact (Json.optional_eq_some_iff hmember (by simp)).2 fun _ _ => rfl
  have hcomputed : (record (f.members ++ extra)).withDefault "computed" false bool? =
      some f.computed := by
    simp [withDefault, members, bool?]
  have hexpression : (record (f.members ++ extra)).optional "expression"
      (Expression.ofJson? passage) = some f.expression ↔
        ∀ e ∈ f.expression, e.IsFinite ∧ (passage = .held → e.IsPlain) := by
    have hmember : (record (f.members ++ extra)).get? "expression" =
        f.expression.map Expression.toJson := by
      simp [members, hexpression]
    rw [Json.optional_eq_some_iff hmember Expression.toJson_ne_null]
    simp only [Expression.ofJson?_toJson_iff]
  have hsplit : (∀ e ∈ f.expression, e.IsFinite ∧ (passage = .held → e.IsPlain)) ↔
      f.IsFinite ∧ (passage = .held → f.IsPlain) :=
    ⟨fun h => ⟨fun e he => (h e he).1, fun hheld e he => (h e he).2 hheld⟩,
      fun h e he => ⟨h.1 e he, fun hheld => h.2 hheld e he⟩⟩
  rw [← hsplit, ← hexpression, ofJson?, hfid, hname, hrole, hagg, hcomputed]
  cases f
  simp [Option.bind_eq_some_iff]

theorem ofJson?_toJson_iff :
    ofJson? passage f.toJson = some f ↔ f.IsFinite ∧ (passage = .held → f.IsPlain) := by
  have h := @ofJson?_record_append_iff passage f [] fun _ _ => rfl
  rwa [List.append_nil] at h

end Field

/-- Where nothing is held, legends do no harm: expressions, transforms and fields that stand on
their own are read back just when their numbers are finite. -/
theorem standalone_reads_back_iff :
    (∀ e : Expression, Expression.ofJson? .direct e.toJson = some e ↔ e.IsFinite) ∧
      (∀ t : Transform, Transform.ofJson? .direct t.toJson = some t ↔ t.expression.IsFinite) ∧
      ∀ f : Field, Field.ofJson? .direct f.toJson = some f ↔ f.IsFinite := by
  refine ⟨fun e => ?_, fun t => ?_, fun f => ?_⟩
  · simp [Expression.ofJson?_toJson_iff]
  · simp [Transform.ofJson?_toJson_iff]
  · simp [Field.ofJson?_toJson_iff]

theorem ShelfRule.ofJson?_tagged {tag : String} {v : Json} :
    ofJson? (.tagged tag v) =
      match tag with
      | "one of" => (Json.list? Literal.ofJson? v).map .oneOf
      | "range" =>
        (Json.pair? Literal.ofJson? Literal.ofJson? v).map fun (lo, hi) => .range lo hi
      | "temporal range" =>
        (Json.pair? Literal.ofJson? Literal.ofJson? v).map fun (lo, hi) => .temporalRange lo hi
      | _ => none := by
  rw [ofJson?, Json.get?_value_tagged, Json.required_type_tagged]
  split <;> simp_all

theorem ShelfRule.ofJson?_toJson_iff {rule : ShelfRule} :
    ofJson? rule.toJson = some rule ↔ rule.IsFinite := by
  cases rule with
  | oneOf values =>
    simp [toJson, ofJson?_tagged, IsFinite, Json.list?_map_eq_some_iff, Literal.ofJson?_toJson_iff]
  | range lo hi =>
    simp [toJson, ofJson?_tagged, IsFinite, Json.pair?, Option.bind_eq_some_iff,
      Literal.ofJson?_toJson_iff]
  | temporalRange lo hi =>
    simp [toJson, ofJson?_tagged, IsFinite, Json.pair?, Option.bind_eq_some_iff,
      Literal.ofJson?_toJson_iff]

/-- The members of the field stand beside the rule and are held until it is found. -/
theorem ShelfFilter.ofJson?_toJson_iff {f : ShelfFilter} :
    ofJson? f.toJson = some f ↔ f.IsFinite ∧ f.field.IsPlain := by
  have hfield : Field.ofJson? .held f.toJson = some f.field ↔
      f.field.IsFinite ∧ f.field.IsPlain := by
    rw [toJson, Field.ofJson?_record_append_iff (by simp [Field.members])]
    simp
  have hrule : f.toJson.optional "rule" ShelfRule.ofJson? = some f.rule ↔
      ∀ rule ∈ f.rule, rule.IsFinite := by
    have hmember : f.toJson.get? "rule" = f.rule.map ShelfRule.toJson := by
      simp [toJson, Field.members]
    rw [Json.optional_eq_some_iff hmember ShelfRule.toJson_ne_null]
    simp only [ShelfRule.ofJson?_toJson_iff]
  have hparts : f.IsFinite ∧ f.field.IsPlain ↔
      (f.field.IsFinite ∧ f.field.IsPlain) ∧ ∀ rule ∈ f.rule, rule.IsFinite :=
    ⟨fun h => ⟨⟨h.1.field, h.2⟩, h.1.rule⟩, fun h => ⟨⟨h.1.1, h.2⟩, h.1.2⟩⟩
  rw [hparts, ← hfield, ← hrule, ofJson?]
  cases f
  simp [Option.bind_eq_some_iff]

namespace View

variable {v : View}

/-- A list of fields that stands on its own is read back if its numbers are finite. -/
theorem withDefault_fields_iff {j : Json} {name : String} {fields : List Field}
    (h : j.get? name = some (.arr (fields.map Field.toJson))) :
    j.withDefault name [] (Json.list? (Field.ofJson? .direct)) = some fields ↔
      ∀ f ∈ fields, f.IsFinite := by
  rw [withDefault, h]
  simp [Json.list?_map_eq_some_iff, Field.ofJson?_toJson_iff]

/-- A view is read back as it was written just when its numbers are finite and no map in a filter
has a legend. -/
theorem reads_back_iff :
    ofJson? v.toJson = some v ↔ v.IsFinite ∧ ∀ f ∈ v.filters, f.field.IsPlain := by
  have hobj : v.toJson.isObj = true := rfl
  have hfilters : v.toJson.withDefault "filters" [] (Json.list? ShelfFilter.ofJson?) =
      some v.filters ↔ ∀ f ∈ v.filters, f.IsFinite ∧ f.field.IsPlain := by
    simp [withDefault, toJson, Json.list?_map_eq_some_iff, ShelfFilter.ofJson?_toJson_iff]
  have hall := @withDefault_fields_iff v.toJson "allFields" v.allFields (by simp [toJson])
  have hdimensions := @withDefault_fields_iff v.toJson "dimensions" v.dimensions (by simp [toJson])
  have hmeasures := @withDefault_fields_iff v.toJson "measures" v.measures (by simp [toJson])
  have haggregates : v.toJson.withDefault "defaultAggregated" false bool? = some v.aggregates := by
    simp [withDefault, toJson, bool?]
  have hsort : v.toJson.withDefault "sort" .unsorted SortMode.ofJson? = some v.sort := by
    simp [withDefault, toJson, SortMode.ofJson?_toJson]
  have hfolds : v.toJson.withDefault "folds" [] (Json.list? str?) = some v.folds := by
    simp [withDefault, toJson, Json.list?_strings]
  have hlimit : v.toJson.optional "limit" uint64? = some v.limit := by
    have hmember : v.toJson.get? "limit" = v.limit.map fun n => .int n.toNat := by simp [toJson]
    exact (Json.optional_eq_some_iff hmember (by simp)).2 fun n _ => Json.uint64?_toNat n
  have hparts : (v.IsFinite ∧ ∀ f ∈ v.filters, f.field.IsPlain) ↔
      (∀ f ∈ v.filters, f.IsFinite ∧ f.field.IsPlain) ∧ (∀ f ∈ v.allFields, f.IsFinite) ∧
        (∀ f ∈ v.dimensions, f.IsFinite) ∧ ∀ f ∈ v.measures, f.IsFinite :=
    ⟨fun h => ⟨fun f hf => ⟨h.1.filters f hf, h.2 f hf⟩, h.1.allFields, h.1.dimensions,
        h.1.measures⟩,
      fun h => ⟨⟨fun f hf => (h.1 f hf).1, h.2.1, h.2.2.1, h.2.2.2⟩, fun f hf => (h.1 f hf).2⟩⟩
  rw [hparts, ← hfilters, ← hall, ← hdimensions, ← hmeasures, ofJson?, hobj, haggregates, hsort,
    hfolds, hlimit]
  cases v
  simp [Option.bind_eq_some_iff]

section Paint

/-- Zones, painted hot where the map says so. -/
def paintedZone : Field :=
  .ofExpression "zone" .dimension ⟨"paint", [.map ⟨"lon", "lat", (.zero false, .zero false),
    (.zero false, .zero false), "", .ofList [(1, ⟨"hot", none⟩)], [1], 0⟩], "zone"⟩

def paintedView : View where
  filters := [⟨paintedZone, some (.oneOf [.text "hot"])⟩]
  allFields := [paintedZone]
  dimensions := [paintedZone]
  measures := []
  aggregates := false
  sort := .unsorted
  folds := []
  limit := none

theorem isFinite_paintedZone : paintedZone.IsFinite := by
  intro e he
  cases he
  intro p hp
  cases List.mem_singleton.1 hp
  exact ⟨⟨rfl, rfl⟩, rfl, rfl⟩

theorem isFinite_paintedView : paintedView.IsFinite := by
  have hfield : ∀ f ∈ [paintedZone], f.IsFinite :=
    List.forall_mem_singleton.2 isFinite_paintedZone
  have hrule : (ShelfRule.oneOf [.text "hot"]).IsFinite := by
    simp [ShelfRule.IsFinite, Literal.IsFinite]
  have hfilter : ShelfFilter.IsFinite ⟨paintedZone, some (.oneOf [.text "hot"])⟩ := by
    refine ⟨isFinite_paintedZone, ?_⟩
    intro rule h
    cases h
    exact hrule
  exact ⟨List.forall_mem_singleton.2 hfilter, hfield, hfield, by simp [paintedView]⟩

/-- On its own the field is read back; among the members of a filter its legend is lost. -/
theorem not_reads_back_painted : paintedView.IsFinite ∧
    Field.ofJson? .direct paintedZone.toJson = some paintedZone ∧
    ofJson? paintedView.toJson = none := by
  refine ⟨isFinite_paintedView, ?_, ?_⟩ <;> with_unfolding_all rfl

end Paint

end View

end ChartQuery
