import ChartQuery.Chart.Wire
import ChartQuery.Proofs.Expression.Leaves
import ChartQuery.Proofs.Json.Finite

namespace ChartQuery

open Json (Yields)

theorem Literal.yields_isFinite : Yields ofJson? IsFinite := by
  intro j l hj hl
  cases hj with
  | int h =>
    cases hl
    exact h
  | real h =>
    cases hl
    exact h
  | arr h => cases hl
  | obj h => cases hl
  | _ =>
    cases hl
    trivial

theorem PaintMap.yields_isFinite {passage : Passage} :
    Yields (ofJson? passage) IsFinite := by
  intro j m hj hm
  simp only [ofJson?, Option.bind_eq_bind, Option.bind_eq_some_iff] at hm
  obtain ⟨_, _, _, _, domainX, hx, domainY, hy, _, _, _, _, _, _, _, _, hm⟩ := hm
  cases hm
  have hrange := Json.yields_real?.pair? Json.yields_real?
  exact ⟨hrange.required "domainX" hj hx, hrange.required "domainY" hj hy⟩

section Expression

variable {passage : Passage}

mutual

theorem Expression.isFinite_of_ofJson? (j : Json) {e : Expression} (hj : j.IsFinite)
    (h : Expression.ofJson? passage j = some e) : e.IsFinite := by
  rw [Expression.ofJson?] at h
  split at h
  · next elements helements =>
    simp only [Option.bind_eq_bind, Option.bind_eq_some_iff] at h
    obtain ⟨_, _, params, hparams, _, _, h⟩ := h
    cases h
    have hlt : sizeOf (Json.arr elements) < sizeOf j := Json.sizeOf_get?_lt helements
    have : sizeOf elements < sizeOf j := Nat.lt_of_le_of_lt (by simp) hlt
    exact Param.isFinite_of_listOfJson? elements
      (fun _ hx => (hj.of_get? helements).of_mem_arr hx) hparams
  · cases h
termination_by sizeOf j

theorem Param.isFinite_of_ofJson? (j : Json) {p : Param} (hj : j.IsFinite)
    (h : Param.ofJson? passage j = some p) : ∀ q ∈ p.leaves, q.IsFinite := by
  rw [Param.ofJson?] at h
  -- One case for each kind of parameter, in the order in which the tags are tried.
  split at h
  · obtain ⟨fid, _, rfl⟩ := Option.map_eq_some_iff.1 h
    simp [Param.leaves, Param.IsFinite]
  · next v hv _ =>
    obtain ⟨e, he, rfl⟩ := Option.map_eq_some_iff.1 h
    have : sizeOf v < sizeOf j := Json.sizeOf_get?_lt hv
    exact Expression.isFinite_of_ofJson? v (hj.of_get? hv) he
  · next v hv _ =>
    obtain ⟨l, hl, rfl⟩ := Option.map_eq_some_iff.1 h
    simpa [Param.leaves, Param.IsFinite] using Literal.yields_isFinite (hj.of_get? hv) hl
  · next v hv _ =>
    obtain ⟨l, hl, rfl⟩ := Option.map_eq_some_iff.1 h
    simpa [Param.leaves, Param.IsFinite] using Literal.yields_isFinite (hj.of_get? hv) hl
  · obtain ⟨s, _, rfl⟩ := Option.map_eq_some_iff.1 h
    simp [Param.leaves, Param.IsFinite]
  · obtain ⟨n, _, rfl⟩ := Option.map_eq_some_iff.1 h
    simp [Param.leaves, Param.IsFinite]
  · next v hv _ =>
    obtain ⟨m, hm, rfl⟩ := Option.map_eq_some_iff.1 h
    simpa [Param.leaves, Param.IsFinite] using PaintMap.yields_isFinite (hj.of_get? hv) hm
  · cases h
termination_by sizeOf j

theorem Param.isFinite_of_listOfJson? (elements : List Json) {params : List Param}
    (hj : ∀ j ∈ elements, j.IsFinite) (h : Param.listOfJson? passage elements = some params) :
    ∀ q ∈ Param.leavesIn params, q.IsFinite := by
  cases elements with
  | nil =>
    rw [Param.listOfJson?] at h
    cases h
    exact fun q hq => absurd hq List.not_mem_nil
  | cons j elements =>
    rw [List.forall_mem_cons] at hj
    simp only [Param.listOfJson?, Option.bind_eq_bind, Option.bind_eq_some_iff] at h
    obtain ⟨p, hp, params, hparams, h⟩ := h
    cases h
    rw [Param.leavesIn, List.forall_mem_append]
    exact ⟨Param.isFinite_of_ofJson? j hj.1 hp,
      Param.isFinite_of_listOfJson? elements hj.2 hparams⟩
termination_by sizeOf elements

end

end Expression

theorem Expression.yields_isFinite {passage : Passage} :
    Yields (ofJson? passage) IsFinite := fun j _ hj he => isFinite_of_ofJson? j hj he

/-- The numbers in the expression of the field are finite. -/
def Field.IsFinite (f : Field) : Prop := ∀ e ∈ f.expression, e.IsFinite

theorem Field.yields_isFinite (passage : Passage) : Yields (ofJson? passage) IsFinite := by
  intro j f hj hf
  simp only [ofJson?, Option.bind_eq_bind, Option.bind_eq_some_iff] at hf
  obtain ⟨_, _, _, _, _, _, _, _, _, _, e?, he, hf⟩ := hf
  cases hf
  exact Expression.yields_isFinite.optional "expression" hj he

namespace ShelfRule

def IsFinite : ShelfRule → Prop
  | oneOf values => ∀ l ∈ values, l.IsFinite
  | range lo hi => lo.IsFinite ∧ hi.IsFinite
  | temporalRange lo hi => lo.IsFinite ∧ hi.IsFinite

theorem yields_isFinite : Yields ofJson? IsFinite := by
  intro j rule hj hrule
  rw [ofJson?] at hrule
  split at hrule
  · next v hv _ =>
    obtain ⟨values, hvalues, rfl⟩ := Option.map_eq_some_iff.1 hrule
    exact Literal.yields_isFinite.list? (hj.of_get? hv) hvalues
  · next v hv _ =>
    obtain ⟨ends, hends, rfl⟩ := Option.map_eq_some_iff.1 hrule
    exact Literal.yields_isFinite.pair? Literal.yields_isFinite (hj.of_get? hv) hends
  · next v hv _ =>
    obtain ⟨ends, hends, rfl⟩ := Option.map_eq_some_iff.1 hrule
    exact Literal.yields_isFinite.pair? Literal.yields_isFinite (hj.of_get? hv) hends
  · cases hrule

end ShelfRule

/-- The numbers in the field and in the rule are finite. -/
structure ShelfFilter.IsFinite (f : ShelfFilter) : Prop where
  field : f.field.IsFinite
  rule : ∀ rule ∈ f.rule, rule.IsFinite

theorem ShelfFilter.yields_isFinite : Yields ofJson? IsFinite := by
  intro j f hj hf
  simp only [ofJson?, Option.bind_eq_bind, Option.bind_eq_some_iff] at hf
  obtain ⟨field, hfield, rule, hrule, hf⟩ := hf
  cases hf
  exact ⟨Field.yields_isFinite .held hj hfield, ShelfRule.yields_isFinite.optional "rule" hj hrule⟩

namespace View

/-- All numbers that stand in a view are finite. -/
structure IsFinite (v : View) : Prop where
  filters : ∀ f ∈ v.filters, f.IsFinite
  allFields : ∀ f ∈ v.allFields, f.IsFinite
  dimensions : ∀ f ∈ v.dimensions, f.IsFinite
  measures : ∀ f ∈ v.measures, f.IsFinite

theorem yields_isFinite : Yields ofJson? IsFinite := by
  intro j v hj hv
  obtain ⟨_, _, hv⟩ := Option.bind_eq_some_iff.1 hv
  simp only [Option.bind_eq_bind, Option.bind_eq_some_iff] at hv
  obtain ⟨filters, hfilters, allFields, hall, dimensions, hdimensions, measures, hmeasures,
    _, _, _, _, _, _, _, _, hv⟩ := hv
  cases hv
  have hnone : ∀ f ∈ ([] : List Field), f.IsFinite := fun f hf => absurd hf List.not_mem_nil
  have hfields := (Field.yields_isFinite .direct).list?
  exact {
    filters := ShelfFilter.yields_isFinite.list?.withDefault "filters" (by simp) hj hfilters
    allFields := hfields.withDefault "allFields" hnone hj hall
    dimensions := hfields.withDefault "dimensions" hnone hj hdimensions
    measures := hfields.withDefault "measures" hnone hj hmeasures }

theorem isFinite_of_read? {text : String} {j : Json} {v : View} (hj : Json.read? text = some j)
    (hv : ofJson? j = some v) : v.IsFinite :=
  yields_isFinite (Json.isFinite_of_read? hj) hv

end View

end ChartQuery
