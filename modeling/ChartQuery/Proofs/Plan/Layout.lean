import ChartQuery.Plan.Graft

namespace ChartQuery

/-- The step, unless it does nothing. -/
def Step.kept (s : Step) : List Step := if s.isEmpty then [] else [s]

theorem Step.kept_of_isEmpty {s : Step} (h : s.isEmpty = true) : s.kept = [] := by
  simp [kept, h]

theorem Step.kept_of_not_isEmpty {s : Step} (h : s.isEmpty = false) : s.kept = [s] := by
  simp [kept, h]

theorem Step.mem_kept {s t : Step} : t ∈ s.kept ↔ t = s ∧ s.isEmpty = false := by
  cases h : s.isEmpty with
  | true => simp [kept_of_isEmpty h]
  | false => simp [kept_of_not_isEmpty h]

@[simp] theorem Step.kept_filter_nil : (Step.filter []).kept = [] := rfl

theorem Step.kept_filter {fs : List RowFilter} (h : fs ≠ []) :
    (Step.filter fs).kept = [.filter fs] := by
  apply kept_of_not_isEmpty
  simp [isEmpty, h]

def Step.filters : Step → List RowFilter
  | .filter filters => filters
  | _ => []

def Step.transforms : Step → List Transform
  | .transform fields => fields
  | _ => []

namespace Plan

/-- The filters of all steps. -/
def filters (p : Plan) : List RowFilter := p.steps.flatMap Step.filters

/-- The computed fields of all steps. -/
def transforms (p : Plan) : List Transform := p.steps.flatMap Step.transforms

theorem flatMap_filters_kept (fs : List RowFilter) :
    (Step.filter fs).kept.flatMap Step.filters = fs := by
  by_cases h : fs = []
  · rw [h]
    rfl
  · rw [Step.kept_filter h]
    exact List.append_nil fs

theorem flatMap_transforms_kept (ts : List Transform) :
    (Step.transform ts).kept.flatMap Step.transforms = ts := by
  cases ts with
  | nil => rfl
  | cons t ts => exact List.append_nil (t :: ts)

theorem flatMap_kept {α : Type} {g : Step → List α} {s : Step} (h : g s = []) :
    s.kept.flatMap g = [] := by
  rw [List.flatMap_eq_nil_iff]
  intro t ht
  rw [(Step.mem_kept.1 ht).1, h]

theorem flatMap_sorts {α : Type} {g : Step → List α} (hg : ∀ keys d, g (.sort keys d) = [])
    {steps : List Step} (h : ∀ s ∈ steps, s.kind = .sort) : steps.flatMap g = [] := by
  rw [List.flatMap_eq_nil_iff]
  intro s hs
  have hk : s.kind = .sort := h s hs
  cases s with
  | sort keys direction => exact hg keys direction
  | filter filters => simp [Step.kind] at hk
  | transform fields => simp [Step.kind] at hk
  | view queries => simp [Step.kind] at hk

theorem steps_ofSteps (steps : List (Option Step)) (limit : Option UInt64) :
    (ofSteps steps limit).steps = steps.flatMap fun s? => s?.toList.flatMap Step.kept := by
  induction steps with
  | nil => rfl
  | cons s? steps ih =>
    cases s? with
    | none => simpa [ofSteps] using ih
    | some s =>
      cases h : s.isEmpty with
      | true => simpa [ofSteps, h, Step.kept] using ih
      | false => simpa [ofSteps, h, Step.kept] using ih

section UpdateFirst

variable {α : Type} {change : α → Option α}

theorem updateFirst_cons_some {x y : α} (h : change x = some y) (xs : List α) :
    updateFirst change (x :: xs) = some (y :: xs) := by
  rw [updateFirst, h]

theorem updateFirst_append (xs ys : List α) (h : ∀ x ∈ xs, change x = none) :
    updateFirst change (xs ++ ys) = (updateFirst change ys).map (xs ++ ·) := by
  induction xs with
  | nil => simp
  | cons x xs ih =>
    have hx : change x = none := h x List.mem_cons_self
    have hxs : ∀ z ∈ xs, change z = none := fun z hz => h z (List.mem_cons_of_mem x hz)
    rw [List.cons_append, updateFirst, hx, ih hxs, Option.map_map]
    rfl

theorem updateFirst_eq_none {xs : List α} (h : ∀ x ∈ xs, change x = none) :
    updateFirst change xs = none := by
  have ha := updateFirst_append xs [] h
  rw [List.append_nil] at ha
  rw [ha]
  rfl

end UpdateFirst

theorem prependFilters_filter (extra filters : List RowFilter) :
    prependFilters extra (.filter filters) = some (.filter (extra ++ filters)) := rfl

theorem prependFilters_eq_none {extra : List RowFilter} {s : Step} (h : s.kind ≠ .filter) :
    prependFilters extra s = none := by
  cases s with
  | filter filters => exact absurd rfl h
  | transform fields => rfl
  | view queries => rfl
  | sort keys direction => rfl

theorem withFilters_nil (p : Plan) : p.withFilters [] = p := rfl

theorem steps_withFilters (p : Plan) {extra : List RowFilter} (h : extra ≠ []) :
    (p.withFilters extra).steps = graft (prependFilters extra) (.filter extra) p.steps := by
  simp [withFilters, h]

section Graft

variable {new : Step} {steps rest : List Step} (extra : List RowFilter)

theorem graft_of_no_filter (h : ∀ s ∈ steps, s.kind ≠ .filter) :
    graft (prependFilters extra) new steps = new :: steps := by
  have hnone : updateFirst (prependFilters extra) steps = none :=
    updateFirst_eq_none fun s hs => prependFilters_eq_none (h s hs)
  rw [graft, hnone, Option.getD_none]

theorem graft_filter (h : ∀ s ∈ steps, s.kind ≠ .filter) (filters : List RowFilter) :
    graft (prependFilters extra) new (steps ++ .filter filters :: rest) =
      steps ++ .filter (extra ++ filters) :: rest := by
  have hnone : ∀ s ∈ steps, prependFilters extra s = none := fun s hs =>
    prependFilters_eq_none (h s hs)
  rw [graft, updateFirst_append steps _ hnone,
    updateFirst_cons_some (prependFilters_filter extra filters), Option.map_some, Option.getD_some]

end Graft

/-- The steps ahead of the query, those that do nothing left out. -/
def prepared (raw : List RowFilter) (ts : List Transform) (computed : List RowFilter) :
    List Step :=
  (Step.filter raw).kept ++ (Step.transform ts).kept ++ (Step.filter computed).kept

/-- The plan filters raw fields, transforms, filters computed fields, queries and then sorts. -/
def IsLaidOut (p : Plan) (raw : List RowFilter) (ts : List Transform)
    (computed : List RowFilter) : Prop :=
  ∃ queries rest, (∀ s ∈ rest, s.kind = .sort) ∧
    p.steps = prepared raw ts computed ++ .view queries :: rest

namespace IsLaidOut

variable {p : Plan} {raw computed : List RowFilter} {ts : List Transform}

theorem filters_eq (h : p.IsLaidOut raw ts computed) : p.filters = raw ++ computed := by
  obtain ⟨queries, rest, hrest, hp⟩ := h
  have htransform : (Step.transform ts).kept.flatMap Step.filters = [] := flatMap_kept rfl
  have hsort : rest.flatMap Step.filters = [] := flatMap_sorts (fun _ _ => rfl) hrest
  simp [filters, hp, prepared, flatMap_filters_kept, htransform, hsort, Step.filters]

theorem transforms_eq (h : p.IsLaidOut raw ts computed) : p.transforms = ts := by
  obtain ⟨queries, rest, hrest, hp⟩ := h
  have hfilter : ∀ fs, (Step.filter fs).kept.flatMap Step.transforms = [] := fun _ =>
    flatMap_kept rfl
  have hsort : rest.flatMap Step.transforms = [] := flatMap_sorts (fun _ _ => rfl) hrest
  simp [transforms, hp, prepared, hfilter, flatMap_transforms_kept, hsort, Step.transforms]

/-- Filters go into the first filter step, or into a new one if there is none at all. -/
theorem withFilters_ahead (h : p.IsLaidOut raw ts computed) (hr : raw ≠ [] ∨ computed = [])
    (extra : List RowFilter) : (p.withFilters extra).IsLaidOut (extra ++ raw) ts computed := by
  by_cases he : extra = []
  · rw [he, withFilters_nil, List.nil_append]
    exact h
  obtain ⟨queries, rest, hrest, hp⟩ := h
  refine ⟨queries, rest, hrest, ?_⟩
  have hnew : (Step.filter (extra ++ raw)).kept = [.filter (extra ++ raw)] := by
    apply Step.kept_filter
    simp [he]
  rw [steps_withFilters p he, hp, prepared, prepared, hnew]
  by_cases hn : raw = []
  · have hc : computed = [] := hr.resolve_left (fun hne => hne hn)
    subst hn hc
    have hkind : ∀ s ∈ (Step.transform ts).kept ++ .view queries :: rest, s.kind ≠ .filter := by
      intro s hs
      rw [List.mem_append, List.mem_cons, Step.mem_kept] at hs
      rcases hs with ⟨rfl, _⟩ | rfl | hs
      · exact StepKind.noConfusion
      · exact StepKind.noConfusion
      · simp [hrest s hs]
    simp only [Step.kept_filter_nil, List.nil_append, List.append_nil, List.cons_append]
    exact graft_of_no_filter extra hkind
  · rw [Step.kept_filter hn]
    simp only [List.cons_append, List.nil_append, List.append_assoc]
    exact graft_filter extra (fun s hs => absurd hs List.not_mem_nil) raw

/-- Without a step for raw filters, the filters behind the transform come first. -/
theorem withFilters_behind (h : p.IsLaidOut [] ts computed) (hc : computed ≠ [])
    (extra : List RowFilter) : (p.withFilters extra).IsLaidOut [] ts (extra ++ computed) := by
  by_cases he : extra = []
  · rw [he, withFilters_nil, List.nil_append]
    exact h
  obtain ⟨queries, rest, hrest, hp⟩ := h
  refine ⟨queries, rest, hrest, ?_⟩
  have hnew : (Step.filter (extra ++ computed)).kept = [.filter (extra ++ computed)] := by
    apply Step.kept_filter
    simp [he]
  have hkind : ∀ s ∈ (Step.transform ts).kept, s.kind ≠ .filter := by
    intro s hs
    rw [(Step.mem_kept.1 hs).1]
    exact StepKind.noConfusion
  rw [steps_withFilters p he, hp, prepared, prepared, Step.kept_filter hc, hnew]
  simp only [Step.kept_filter_nil, List.nil_append, List.append_assoc, List.cons_append]
  exact graft_filter extra hkind computed

end IsLaidOut

end Plan

end ChartQuery
