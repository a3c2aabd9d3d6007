import ChartQuery.Proofs.Compile.Measures

namespace ChartQuery

section First

variable {α : Type} {P : α → Prop} {xs : List α} {x y : α}

/-- The element is the first one with the property. -/
def IsFirst (P : α → Prop) (xs : List α) (x : α) : Prop :=
  ∃ before after, xs = before ++ x :: after ∧ P x ∧ ∀ y ∈ before, ¬ P y

theorem find?_eq_some_iff_isFirst {p : α → Bool} (hp : ∀ x, p x = true ↔ P x) :
    xs.find? p = some x ↔ IsFirst P xs x := by
  simp only [List.find?_eq_some_iff_append, IsFirst, ← hp, Bool.not_eq_true', Bool.not_eq_true]
  constructor
  · rintro ⟨hx, before, after, hxs, hbefore⟩
    exact ⟨before, after, hxs, hx, hbefore⟩
  · rintro ⟨before, after, hxs, hx, hbefore⟩
    exact ⟨hx, before, after, hxs, hbefore⟩

theorem IsFirst.mem (h : IsFirst P xs x) : x ∈ xs := by
  obtain ⟨before, after, rfl, -⟩ := h
  exact List.mem_append_right before List.mem_cons_self

theorem IsFirst.prop (h : IsFirst P xs x) : P x := by
  obtain ⟨-, -, -, hx, -⟩ := h
  exact hx

theorem exists_isFirst (hx : x ∈ xs) (hP : P x) : ∃ y, IsFirst P xs y := by
  classical
  have hp : ∀ z, decide (P z) = true ↔ P z := fun z => decide_eq_true_iff
  have hfound : (xs.find? fun z => decide (P z)).isSome = true :=
    List.find?_isSome.2 ⟨x, hx, (hp x).2 hP⟩
  obtain ⟨y, hy⟩ := Option.isSome_iff_exists.1 hfound
  exact ⟨y, (find?_eq_some_iff_isFirst hp).1 hy⟩

theorem IsFirst.unique (h : IsFirst P xs x) (h' : IsFirst P xs y) : x = y := by
  classical
  have hp : ∀ z, decide (P z) = true ↔ P z := fun z => decide_eq_true_iff
  rw [← find?_eq_some_iff_isFirst hp] at h h'
  exact Option.some.inj (h.symm.trans h')

end First

namespace Shelves

/-- Puts a field behind those of its role. -/
def push (shelves : Shelves) (f : Field) : Shelves :=
  match f.role with
  | .dimension => { shelves with dimensions := shelves.dimensions ++ [f] }
  | .measure => { shelves with measures := shelves.measures ++ [f] }

theorem foldl_push (fields : List Field) (shelves : Shelves) : fields.foldl push shelves =
    ⟨shelves.dimensions ++ fields.filter (·.isDimension),
      shelves.measures ++ fields.filter (!·.isDimension)⟩ := by
  induction fields generalizing shelves with
  | nil => simp
  | cons f fields ih =>
    rw [List.foldl_cons, ih]
    cases hrole : f.role with
    | dimension => simp [push, Field.isDimension, hrole]
    | measure => simp [push, Field.isDimension, hrole]

end Shelves

namespace View

variable {v : View} {s : Settings} {p : Plan} {shelves : Shelves}

/-- The shelves without the fold pair. -/
def withoutFolds (v : View) (s : Settings) : Shelves :=
  ⟨v.dimensions.filter (·.fid != s.foldKey), v.measures.filter (·.fid != s.foldValue)⟩

/-- Both halves of the fold pair are on their shelves, and this is the first fold value. -/
def IsFoldedBy (v : View) (s : Settings) (value : Field) : Prop :=
  (∃ f ∈ v.dimensions, f.fid = s.foldKey) ∧ IsFirst (·.fid = s.foldValue) v.measures value

/-- The fold stands for the first field of the dataset with its key, under the aggregation. -/
def FoldsTo (v : View) (agg : Option String) (fold : String) (f : Field) : Prop :=
  ∃ g, IsFirst (·.fid = fold) v.allFields g ∧ f = { g with agg }

/-- What stands on the shelves once the folds of the view are unfolded. -/
inductive Unfolds (v : View) (s : Settings) : Shelves → Prop
  | plain (h : ∀ value, ¬ v.IsFoldedBy s value) : v.Unfolds s (v.withoutFolds s)
  | folded {value : Field} {fields : List Field} (h : v.IsFoldedBy s value)
      (hfields : List.Forall₂ (v.FoldsTo value.agg) v.folds fields) :
      v.Unfolds s (fields.foldl Shelves.push (v.withoutFolds s))

theorem isFoldedBy_iff {value : Field} : v.IsFoldedBy s value ↔
    v.dimensions.any (·.fid == s.foldKey) = true ∧
      v.measures.find? (·.fid == s.foldValue) = some value := by
  have hfirst : v.measures.find? (·.fid == s.foldValue) = some value ↔
      IsFirst (·.fid = s.foldValue) v.measures value :=
    find?_eq_some_iff_isFirst fun f => beq_iff_eq
  rw [hfirst, List.any_eq_true, IsFoldedBy]
  simp only [beq_iff_eq]

theorem foldsTo_iff {agg : Option String} {fold : String} {f : Field} :
    v.FoldsTo agg fold f ↔ v.foldedField s agg fold = .ok f := by
  have hfirst : ∀ g, v.field? fold = some g ↔ IsFirst (·.fid = fold) v.allFields g := fun g =>
    find?_eq_some_iff_isFirst fun f => beq_iff_eq
  simp only [FoldsTo, ← hfirst, foldedField]
  cases v.field? fold with
  | none => simp
  | some g => simp [eq_comm]

theorem mapM_foldedField_eq_ok_iff {agg : Option String} {folds : List String}
    {fields : List Field} : folds.mapM (v.foldedField s agg) = .ok fields ↔
      List.Forall₂ (v.FoldsTo agg) folds fields := by
  have hfolds : v.FoldsTo agg = fun fold f => v.foldedField s agg fold = .ok f :=
    funext fun fold => funext fun f => propext foldsTo_iff
  rw [mapM_eq_ok_iff, hfolds, ← List.forall₂_eq_eq_eq, List.forall₂_map_left_iff,
    List.forall₂_map_right_iff]

theorem foldedFields_eq_ok_iff {fields : List Field} : v.foldedFields s = .ok fields ↔
    (∀ value, ¬ v.IsFoldedBy s value) ∧ fields = [] ∨
      ∃ value, v.IsFoldedBy s value ∧ List.Forall₂ (v.FoldsTo value.agg) v.folds fields := by
  simp only [isFoldedBy_iff, foldedFields]
  cases hvalue : v.measures.find? (·.fid == s.foldValue) with
  | none => simp
  | some value =>
    cases hkey : v.dimensions.any (·.fid == s.foldKey) with
    | false => simp
    | true => simp [mapM_foldedField_eq_ok_iff]

theorem shelves_eq_ok_iff : v.shelves s = .ok shelves ↔ v.Unfolds s shelves := by
  have hshelves : ∀ fields : List Field, fields.foldl Shelves.push (v.withoutFolds s) =
      ⟨v.dimensions.filter (·.fid != s.foldKey) ++ fields.filter (·.isDimension),
        v.measures.filter (·.fid != s.foldValue) ++ fields.filter (!·.isDimension)⟩ := by
    intro fields
    rw [Shelves.foldl_push]
    rfl
  rw [View.shelves, except_bind_eq_ok]
  constructor
  · intro h
    obtain ⟨fields, hfields, h⟩ := h
    cases h
    rw [← hshelves]
    rcases foldedFields_eq_ok_iff.1 hfields with ⟨hplain, rfl⟩ | ⟨value, hvalue, hfields⟩
    · exact .plain hplain
    · exact .folded hvalue hfields
  · intro h
    cases h with
    | plain h =>
      refine ⟨[], foldedFields_eq_ok_iff.2 (.inl ⟨h, rfl⟩), ?_⟩
      rw [← hshelves]
      rfl
    | @folded value fields h hfields =>
      refine ⟨fields, foldedFields_eq_ok_iff.2 (.inr ⟨value, h, hfields⟩), ?_⟩
      rw [← hshelves]
      rfl

theorem Unfolds.unique {shelves' : Shelves} (h : v.Unfolds s shelves) (h' : v.Unfolds s shelves') :
    shelves = shelves' := by
  rw [← shelves_eq_ok_iff] at h h'
  exact Except.ok.inj (h.symm.trans h')

section Query

/-- The query aggregates just if the view asks for that and a measure names an aggregation or there
are only dimensions. It asks for the fields on the shelves, and of the measures with one column, or
the fields with one key, for the first. -/
structure IsQueryFor (v : View) (s : Settings) (shelves : Shelves) (q : ViewQuery) : Prop where
  isAggregate_iff : q.isAggregate = true ↔ v.aggregates = true ∧
    ((∃ f ∈ shelves.measures, f.agg ≠ none) ∨
      shelves.measures = [] ∧ shelves.dimensions ≠ [])
  aggregate : ∀ groupBy measures, q = .aggregate groupBy measures →
    groupBy = shelves.dimensions.map Field.fid ∧
      Firsts Measure.output (shelves.measures.map (measureOf s)) measures
  raw : ∀ fields, q = .raw fields →
    Firsts id ((shelves.dimensions ++ shelves.measures).map Field.fid) fields

theorem isQueryFor_query (v : View) (s : Settings) (shelves : Shelves) :
    v.IsQueryFor s shelves (query s shelves (v.isAggregated shelves)) where
  isAggregate_iff := by
    rw [isAggregate_query]
    simp [isAggregated, Option.isSome_iff_ne_none]
  aggregate := by
    intro groupBy measures hq
    cases hagg : v.isAggregated shelves with
    | false =>
      rw [hagg] at hq
      cases hq
    | true =>
      rw [hagg] at hq
      cases hq
      exact ⟨rfl, firsts_distinctBy _ _⟩
  raw := by
    intro fields hq
    cases hagg : v.isAggregated shelves with
    | true =>
      rw [hagg] at hq
      cases hq
    | false =>
      rw [hagg] at hq
      cases hq
      rw [List.map_append]
      exact firsts_distinctBy _ _

/-- The stages of a compilation, as far as its query goes. -/
theorem exists_stages_of_compile (h : v.compile s = .ok p) : ∃ g : Stages, g.plan v s = p ∧
    v.Unfolds s g.shelves ∧ p.queries? = some [g.viewQuery v s] := by
  obtain ⟨g, hg, rfl⟩ := compile_eq_ok.1 h
  exact ⟨g, rfl, shelves_eq_ok_iff.1 hg.shelves, g.queries?_plan⟩

/-- A compiled plan has the query for what is on the shelves of the view after unfolding. -/
theorem query_of_compile (h : v.compile s = .ok p) : ∃ shelves q, v.Unfolds s shelves ∧
    p.queries? = some [q] ∧ v.IsQueryFor s shelves q := by
  obtain ⟨g, rfl, hunfolds, hq⟩ := exists_stages_of_compile h
  exact ⟨g.shelves, g.viewQuery v s, hunfolds, hq, v.isQueryFor_query s g.shelves⟩

end Query

section Folded

/-- Sales and costs are folded, and the channel with them; the second fold value counts for
nothing. -/
def foldedView : View where
  filters := []
  allFields := [.dimension "region", .dimension "channel", .new "sales" .measure,
    .new "cost" .measure, .measure "units" "max"]
  dimensions := [.dimension "gw_mea_key_fid", .dimension "region"]
  measures := [.measure "units" "max", .new "cost" .measure, .measure "gw_mea_val_fid" "mean",
    .measure "gw_mea_val_fid" "min"]
  aggregates := true
  sort := .descending
  folds := ["sales", "channel", "cost", "sales"]
  limit := some 5

def foldedMeasures : List Measure :=
  [.new "units" "max", .new "cost" "sum", .new "sales" "mean", .new "cost" "mean"]

def foldedPlan : Plan where
  steps := [.view [.aggregate ["region", "channel"] foldedMeasures],
    .sort ["units_max", "cost_sum", "sales_mean", "cost_mean"] .descending]
  limit := some 5

theorem compile_foldedView : foldedView.compile .default = .ok foldedPlan := by
  with_unfolding_all rfl

theorem query_of_foldedView : foldedView.compile .default = .ok foldedPlan ∧
    ∃ shelves, foldedView.Unfolds .default shelves ∧
      foldedView.IsQueryFor .default shelves (.aggregate ["region", "channel"] foldedMeasures) := by
  obtain ⟨shelves, q, hunfolds, hq, hquery⟩ := query_of_compile compile_foldedView
  obtain rfl : ViewQuery.aggregate ["region", "channel"] foldedMeasures = q := by
    simpa [foldedPlan, Plan.queries?] using hq
  exact ⟨compile_foldedView, shelves, hunfolds, hquery⟩

end Folded

end View

end ChartQuery
