import ChartQuery.Proofs.Distinct
import ChartQuery.Proofs.Plan.Kinds

namespace ChartQuery

/-- The second step is the first one with more behind its transforms or ahead of its filters. -/
inductive Step.GrowsTo : Step → Step → Prop
  | filter (extra filters : List RowFilter) : GrowsTo (.filter filters) (.filter (extra ++ filters))
  | transform (fields extra : List Transform) :
      GrowsTo (.transform fields) (.transform (fields ++ extra))

namespace Plan

section UpdateFirst

variable {α : Type} {change change' : α → Option α}

theorem updateFirst_cons_none {x : α} (h : change x = none) (xs : List α) :
    updateFirst change (x :: xs) = (updateFirst change xs).map (x :: ·) := by
  rw [updateFirst, h]

theorem updateFirst_comp_cons_some {x y : α} (h : change x = some y) :
    updateFirst change ∘ (x :: ·) = fun xs => some (y :: xs) :=
  funext fun xs => updateFirst_cons_some h xs

theorem updateFirst_comp_cons_none {x : α} (h : change x = none) :
    updateFirst change ∘ (x :: ·) = fun xs => (updateFirst change xs).map (x :: ·) :=
  funext fun xs => updateFirst_cons_none h xs

theorem isSome_updateFirst (change : α → Option α) (xs : List α) :
    (updateFirst change xs).isSome = xs.any fun x => (change x).isSome := by
  induction xs with
  | nil => rfl
  | cons x xs ih =>
    cases hx : change x with
    | some y => simp [updateFirst_cons_some hx, hx]
    | none => simp [updateFirst_cons_none hx, hx, ih]

/-- Two changes that apply to the same elements meet at one. -/
theorem updateFirst_bind (hnone : ∀ x, change x = none → change' x = none)
    (hsome : ∀ x y, change x = some y → (change' y).isSome = true) (xs : List α) :
    (updateFirst change xs).bind (updateFirst change') =
      updateFirst (fun x => (change x).bind change') xs := by
  induction xs with
  | nil => rfl
  | cons x xs ih =>
    cases hx : change x with
    | some y =>
      obtain ⟨z, hz⟩ := Option.isSome_iff_exists.1 (hsome x y hx)
      have hboth : (change x).bind change' = some z := by rw [hx, Option.bind_some, hz]
      rw [updateFirst_cons_some hx, Option.bind_some, updateFirst_cons_some hz,
        updateFirst_cons_some hboth]
    | none =>
      have hboth : (change x).bind change' = none := by rw [hx, Option.bind_none]
      rw [updateFirst_cons_none hx, updateFirst_cons_none hboth, ← ih, Option.bind_map,
        updateFirst_comp_cons_none (hnone x hx), Option.map_bind]
      rfl

/-- Two changes that never apply to one element do not get in each other's way. -/
theorem updateFirst_comm
    (h : ∀ x y, change x = some y → change' x = none ∧ change' y = none)
    (h' : ∀ x y, change' x = some y → change x = none ∧ change y = none) (xs : List α) :
    (updateFirst change xs).bind (updateFirst change') =
      (updateFirst change' xs).bind (updateFirst change) := by
  induction xs with
  | nil => rfl
  | cons x xs ih =>
    cases hx : change x with
    | some y =>
      obtain ⟨hx', hy'⟩ := h x y hx
      rw [updateFirst_cons_some hx, Option.bind_some, updateFirst_cons_none hy',
        updateFirst_cons_none hx', Option.bind_map, updateFirst_comp_cons_some hx]
      exact Option.map_eq_bind
    | none =>
      cases hx' : change' x with
      | some y =>
        obtain ⟨-, hy⟩ := h' x y hx'
        rw [updateFirst_cons_some hx', Option.bind_some, updateFirst_cons_none hy,
          updateFirst_cons_none hx, Option.bind_map, updateFirst_comp_cons_some hx']
        exact Option.map_eq_bind.symm
      | none =>
        have hmapped := congrArg (Option.map (x :: ·)) ih
        rw [Option.map_bind, Option.map_bind] at hmapped
        rwa [updateFirst_cons_none hx, updateFirst_cons_none hx', Option.bind_map, Option.bind_map,
          updateFirst_comp_cons_none hx, updateFirst_comp_cons_none hx']

end UpdateFirst

section Graft

variable {k j : StepKind} {change change' : Step → Option Step} {new new' : Step}
  {steps : List Step}

theorem ChangesOnly.isSome_iff (h : ChangesOnly k change) (s : Step) :
    (change s).isSome = true ↔ s.kind = k := by
  constructor
  · intro hs
    obtain ⟨t, ht⟩ := Option.isSome_iff_exists.1 hs
    exact (h.of_eq_some ht).1
  · intro hk
    obtain ⟨t, ht, -⟩ := h.eq_some s hk
    rw [ht, Option.isSome_some]

theorem ChangesOnly.isSome_updateFirst_iff (h : ChangesOnly k change) (steps : List Step) :
    (updateFirst change steps).isSome = true ↔ k ∈ steps.map Step.kind := by
  simp only [isSome_updateFirst, List.any_eq_true, h.isSome_iff, List.mem_map]

theorem ChangesOnly.updateFirst_bind (h : ChangesOnly k change) (h' : ChangesOnly k change')
    (steps : List Step) : (updateFirst change steps).bind (updateFirst change') =
      updateFirst (fun s => (change s).bind change') steps := by
  apply Plan.updateFirst_bind
  · intro s hs
    apply h'.eq_none
    intro hk
    have hsome := (h.isSome_iff s).2 hk
    simp [hs] at hsome
  · intro s t hst
    exact (h'.isSome_iff t).2 (h.of_eq_some hst).2.1

theorem ChangesOnly.updateFirst_comm (h : ChangesOnly k change) (h' : ChangesOnly j change')
    (hkj : k ≠ j) (steps : List Step) : (updateFirst change steps).bind (updateFirst change') =
      (updateFirst change' steps).bind (updateFirst change) := by
  apply Plan.updateFirst_comm
  · intro s t hst
    obtain ⟨hs, ht, _⟩ := h.of_eq_some hst
    exact ⟨h'.eq_none s (hs ▸ hkj), h'.eq_none t (ht ▸ hkj)⟩
  · intro s t hst
    obtain ⟨hs, ht, _⟩ := h'.of_eq_some hst
    exact ⟨h.eq_none s (hs ▸ hkj.symm), h.eq_none t (ht ▸ hkj.symm)⟩

theorem ChangesOnly.updateFirst_of_notMem (h : ChangesOnly k change)
    (hmem : k ∉ steps.map Step.kind) : updateFirst change steps = none := by
  rwa [← h.isSome_updateFirst_iff, Bool.not_eq_true, Option.isSome_eq_false_iff,
    Option.isNone_iff_eq_none] at hmem

theorem ChangesOnly.graft_of_notMem (h : ChangesOnly k change) (new : Step)
    (hmem : k ∉ steps.map Step.kind) : graft change new steps = new :: steps := by
  rw [graft, h.updateFirst_of_notMem hmem, Option.getD_none]

theorem ChangesOnly.graft_of_mem (h : ChangesOnly k change) (new : Step)
    (hmem : k ∈ steps.map Step.kind) :
    updateFirst change steps = some (graft change new steps) := by
  obtain ⟨steps', hs⟩ := Option.isSome_iff_exists.1 ((h.isSome_updateFirst_iff steps).2 hmem)
  rw [graft, hs, Option.getD_some]

/-- A second graft of one kind finds the step that the first one changed or brought in. -/
theorem graft_graft (h : ChangesOnly k change) (h' : ChangesOnly k change')
    (hchange : change' new = some new') (hnew : new.kind = k) (other : Step)
    (steps : List Step) : graft change' other (graft change new steps) =
      graft (fun s => (change s).bind change') new' steps := by
  have hbind := h.updateFirst_bind h' steps
  by_cases hmem : k ∈ steps.map Step.kind
  · have hmem' : k ∈ (graft change new steps).map Step.kind := by
      rw [kinds_graft h hnew, StepKind.ensure_of_mem hmem]
      exact hmem
    rw [h.graft_of_mem new hmem, Option.bind_some, h'.graft_of_mem other hmem'] at hbind
    rw [graft.eq_1 (fun s => (change s).bind change'), ← hbind, Option.getD_some]
  · rw [h.updateFirst_of_notMem hmem, Option.bind_none] at hbind
    rw [h.graft_of_notMem new hmem, graft, graft, ← hbind, updateFirst_cons_some hchange]
    rfl

/-- Where one kind is there and the other one is not, the new step of the latter comes first,
whichever is grafted first. -/
theorem graft_comm_of_notMem (h : ChangesOnly k change) (h' : ChangesOnly j change')
    (hkj : k ≠ j) (hnew : new.kind = k) (hnew' : new'.kind = j)
    (hk : k ∈ steps.map Step.kind) (hj : j ∉ steps.map Step.kind) :
    graft change' new' (graft change new steps) = graft change new (graft change' new' steps) := by
  have hj' : j ∉ (graft change new steps).map Step.kind := by
    rw [kinds_graft h hnew, StepKind.ensure_of_mem hk]
    exact hj
  have hfront : change new' = none := h.eq_none new' (hnew' ▸ hkj.symm)
  rw [h'.graft_of_notMem new' hj', h'.graft_of_notMem new' hj,
    graft.eq_1 change new (new' :: steps), updateFirst_cons_none hfront, h.graft_of_mem new hk]
  rfl

/-- Grafts of two kinds change places if one of the kinds is there. -/
theorem graft_comm (h : ChangesOnly k change) (h' : ChangesOnly j change') (hkj : k ≠ j)
    (hnew : new.kind = k) (hnew' : new'.kind = j)
    (hmem : k ∈ steps.map Step.kind ∨ j ∈ steps.map Step.kind) :
    graft change' new' (graft change new steps) = graft change new (graft change' new' steps) := by
  by_cases hk : k ∈ steps.map Step.kind
  · by_cases hj : j ∈ steps.map Step.kind
    · have hj' : j ∈ (graft change new steps).map Step.kind := by
        rw [kinds_graft h hnew]
        exact StepKind.mem_ensure_of_mem k hj
      have hk' : k ∈ (graft change' new' steps).map Step.kind := by
        rw [kinds_graft h' hnew']
        exact StepKind.mem_ensure_of_mem j hk
      have hcomm := h.updateFirst_comm h' hkj steps
      rw [h.graft_of_mem new hk, h'.graft_of_mem new' hj, Option.bind_some, Option.bind_some,
        h'.graft_of_mem new' hj', h.graft_of_mem new hk'] at hcomm
      exact Option.some.inj hcomm
    · exact graft_comm_of_notMem h h' hkj hnew hnew' hk hj
  · have hj : j ∈ steps.map Step.kind := hmem.resolve_left hk
    exact (graft_comm_of_notMem h' h hkj.symm hnew' hnew hj hk).symm

end Graft

section Filters

variable (p : Plan)

theorem withFilters_eq {extra : List RowFilter} (h : extra ≠ []) : p.withFilters extra =
    ⟨graft (prependFilters extra) (.filter extra) p.steps, p.limit⟩ := by
  rw [withFilters, if_neg (by simpa using h)]

theorem prependFilters_bind (a b : List RowFilter) :
    (fun s => (prependFilters a s).bind (prependFilters b)) = prependFilters (b ++ a) := by
  funext s
  cases s with
  | filter filters => simp [prependFilters]
  | transform fields => rfl
  | view queries => rfl
  | sort keys direction => rfl

theorem limit_withFilters (extra : List RowFilter) : (p.withFilters extra).limit = p.limit := by
  by_cases he : extra = []
  · rw [he, withFilters_nil]
  · rw [p.withFilters_eq he]

theorem withFilters_withFilters (a b : List RowFilter) :
    (p.withFilters a).withFilters b = p.withFilters (b ++ a) := by
  by_cases ha : a = []
  · rw [ha, withFilters_nil, List.append_nil]
  by_cases hb : b = []
  · rw [hb, withFilters_nil, List.nil_append]
  have hba : b ++ a ≠ [] := List.append_ne_nil_of_left_ne_nil hb a
  have hgraft := graft_graft (changesOnly_prependFilters a) (changesOnly_prependFilters b)
    (prependFilters_filter b a) rfl (.filter b) p.steps
  rw [prependFilters_bind] at hgraft
  rw [p.withFilters_eq ha, withFilters_eq _ hb, p.withFilters_eq hba, hgraft]

end Filters

section Transforms

variable (p : Plan)

/-- The extra transforms whose keys are not there yet. -/
def unseen (fields extra : List Transform) : List Transform :=
  extra.filter fun t => !fields.any (·.key == t.key)

theorem appendTransforms_transform (extra fields : List Transform) :
    appendTransforms extra (.transform fields) =
      some (.transform (fields ++ unseen fields extra)) := rfl

theorem any_unseen (fields extra : List Transform) (key : String) :
    (fields ++ unseen fields extra).any (·.key == key) = (fields ++ extra).any (·.key == key) := by
  rw [Bool.eq_iff_iff]
  simp only [unseen, List.any_append, Bool.or_eq_true, List.any_eq_true, List.mem_filter,
    beq_iff_eq]
  constructor
  · intro h
    rcases h with h | ⟨t, ⟨ht, -⟩, hk⟩
    · exact .inl h
    · exact .inr ⟨t, ht, hk⟩
  · intro h
    by_cases hseen : ∃ u ∈ fields, u.key = key
    · exact .inl hseen
    · obtain ⟨t, ht, hk⟩ := h.resolve_left hseen
      have hnew : (!fields.any (·.key == t.key)) = true := by simpa [hk] using hseen
      exact .inr ⟨t, ⟨ht, hnew⟩, hk⟩

/-- What is new behind the fields and the new ones among the first extras is new behind both. -/
theorem unseen_append_unseen (fields a b : List Transform) :
    unseen fields a ++ unseen (fields ++ unseen fields a) b = unseen fields (a ++ unseen a b) := by
  have hnew : unseen (fields ++ unseen fields a) b = unseen fields (unseen a b) := by
    simp only [unseen.eq_1 _ b, any_unseen]
    simp only [unseen, List.filter_filter, List.any_append, Bool.not_or]
  rw [hnew, unseen.eq_1 fields (a ++ _), List.filter_append]
  rfl

theorem unseen_of_subset {fields extra : List Transform} (h : extra ⊆ fields) :
    unseen fields extra = [] := by
  rw [unseen, List.filter_eq_nil_iff]
  intro t ht
  simpa using ⟨t, h ht, rfl⟩

theorem distinctBy_append_unseen (a b : List Transform) :
    distinctBy Transform.key (a ++ b) = distinctBy Transform.key a ++
      unseen (distinctBy Transform.key a) (distinctBy Transform.key b) := by
  rw [distinctBy_append, unseen]
  congr 1
  apply List.filter_congr
  intro t _
  rw [any_distinctBy]
  simp only [BEq.comm]

theorem appendTransforms_bind (a b : List Transform) :
    (fun s => (appendTransforms a s).bind (appendTransforms b)) =
      appendTransforms (a ++ unseen a b) := by
  funext s
  cases s with
  | transform fields =>
    have hsame := unseen_append_unseen fields a b
    simpa [appendTransforms, unseen] using hsame
  | filter filters => rfl
  | view queries => rfl
  | sort keys direction => rfl

theorem withTransforms_nil : p.withTransforms [] = p := rfl

theorem withTransforms_eq {extra : List Transform} (h : extra ≠ []) : p.withTransforms extra =
    ⟨graft (appendTransforms (distinctBy Transform.key extra))
      (.transform (distinctBy Transform.key extra)) p.steps, p.limit⟩ := by
  have hne : ¬ (distinctBy Transform.key extra).isEmpty = true := by
    cases extra with
    | nil => exact absurd rfl h
    | cons t extra => simp [distinctBy]
  rw [withTransforms, if_neg hne]

theorem limit_withTransforms (extra : List Transform) :
    (p.withTransforms extra).limit = p.limit := by
  by_cases he : extra = []
  · rw [he, withTransforms_nil]
  · rw [p.withTransforms_eq he]

theorem withTransforms_withTransforms (a b : List Transform) :
    (p.withTransforms a).withTransforms b = p.withTransforms (a ++ b) := by
  by_cases ha : a = []
  · rw [ha, withTransforms_nil, List.nil_append]
  by_cases hb : b = []
  · rw [hb, withTransforms_nil, List.append_nil]
  have hab : a ++ b ≠ [] := List.append_ne_nil_of_left_ne_nil ha b
  have hchange := appendTransforms_transform (distinctBy Transform.key b)
    (distinctBy Transform.key a)
  have hgraft := graft_graft (changesOnly_appendTransforms (distinctBy Transform.key a))
    (changesOnly_appendTransforms (distinctBy Transform.key b)) hchange rfl
    (.transform (distinctBy Transform.key b)) p.steps
  rw [appendTransforms_bind, ← distinctBy_append_unseen] at hgraft
  rw [p.withTransforms_eq ha, withTransforms_eq _ hb, p.withTransforms_eq hab, hgraft]

/-- What is grafted a second time is there already. -/
theorem withTransforms_self (a : List Transform) :
    (p.withTransforms a).withTransforms a = p.withTransforms a := by
  have hsame : distinctBy Transform.key (a ++ a) = distinctBy Transform.key a := by
    rw [distinctBy_append_unseen, unseen_of_subset (List.Subset.refl _), List.append_nil]
  rw [withTransforms_withTransforms, withTransforms, withTransforms, hsame]

end Transforms

section Both

variable (p : Plan) {a : List Transform} {f : List RowFilter}

theorem withFilters_withTransforms_comm
    (h : .transform ∈ p.kinds ∨ .filter ∈ p.kinds ∨ a = [] ∨ f = []) :
    (p.withTransforms a).withFilters f = (p.withFilters f).withTransforms a := by
  by_cases ha : a = []
  · rw [ha, withTransforms_nil, withTransforms_nil]
  by_cases hf : f = []
  · rw [hf, withFilters_nil, withFilters_nil]
  have hmem : .transform ∈ p.steps.map Step.kind ∨ .filter ∈ p.steps.map Step.kind := by
    rcases h with h | h | h | h
    · exact .inl h
    · exact .inr h
    · exact absurd h ha
    · exact absurd h hf
  have ht := changesOnly_appendTransforms (distinctBy Transform.key a)
  have hkind : (Step.transform (distinctBy Transform.key a)).kind = .transform := rfl
  have hkind' : (Step.filter f).kind = .filter := rfl
  have hcomm := graft_comm ht (changesOnly_prependFilters f) StepKind.noConfusion hkind hkind' hmem
  rw [p.withTransforms_eq ha, p.withFilters_eq hf, withFilters_eq _ hf, withTransforms_eq _ ha,
    hcomm]

/-- Each graft puts its new step in front, so the later one comes first. -/
theorem withFilters_withTransforms_of_notMem (ha : a ≠ []) (hf : f ≠ [])
    (htransform : .transform ∉ p.kinds) (hfilter : .filter ∉ p.kinds) :
    (p.withTransforms a).withFilters f =
        { p with steps := .filter f :: .transform (distinctBy Transform.key a) :: p.steps } ∧
      (p.withFilters f).withTransforms a =
        { p with steps := .transform (distinctBy Transform.key a) :: .filter f :: p.steps } := by
  have ht := changesOnly_appendTransforms (distinctBy Transform.key a)
  have hs := changesOnly_prependFilters f
  have hfilter' : .filter ∉ (.transform (distinctBy Transform.key a) :: p.steps).map Step.kind := by
    exact fun h => hfilter (List.mem_of_ne_of_mem StepKind.noConfusion h)
  have htransform' : .transform ∉ (.filter f :: p.steps).map Step.kind := by
    exact fun h => htransform (List.mem_of_ne_of_mem StepKind.noConfusion h)
  constructor
  · rw [p.withTransforms_eq ha, withFilters_eq _ hf, ht.graft_of_notMem _ htransform,
      hs.graft_of_notMem _ hfilter']
  · rw [p.withFilters_eq hf, withTransforms_eq _ ha, hs.graft_of_notMem _ hfilter,
      ht.graft_of_notMem _ htransform']

end Both

/-- The steps are the same but for the first one of the kind, which got more entries, or a new one
in front. -/
inductive GrowsAt (k : StepKind) : List Step → List Step → Prop
  | nowhere (steps : List Step) : GrowsAt k steps steps
  | inFront {new : Step} {steps : List Step} (hnew : new.kind = k)
      (hsteps : k ∉ steps.map Step.kind) : GrowsAt k steps (new :: steps)
  | atFirst {before after : List Step} {s t : Step} (hbefore : k ∉ before.map Step.kind)
      (hs : s.kind = k) (hst : s.GrowsTo t) :
      GrowsAt k (before ++ s :: after) (before ++ t :: after)

section Growth

variable {k : StepKind} {change : Step → Option Step} {new : Step}

theorem growsAt_graft (h : ChangesOnly k change) (hnew : new.kind = k)
    (hgrows : ∀ s t, change s = some t → s.GrowsTo t) (steps : List Step) :
    GrowsAt k steps (graft change new steps) := by
  rcases graft_cases h new steps with ⟨hk, hg⟩ | ⟨before, s, t, after, rfl, hg, hbefore, hst⟩
  · rw [hg]
    exact .inFront hnew hk
  · rw [hg]
    exact .atFirst hbefore (h.of_eq_some hst).1 (hgrows s t hst)

/-- What the new step and the changed ones have in common, a step has after the graft. -/
theorem exists_mem_graft (h : ChangesOnly k change) {P : Step → Prop} (hnew : P new)
    (hchange : ∀ s t, change s = some t → P t) (steps : List Step) :
    ∃ s ∈ graft change new steps, P s := by
  rcases graft_cases h new steps with ⟨_, hg⟩ | ⟨before, s, t, after, rfl, hg, _, hst⟩
  · rw [hg]
    exact ⟨new, List.mem_cons_self, hnew⟩
  · rw [hg]
    exact ⟨t, List.mem_append_right before List.mem_cons_self, hchange s t hst⟩

theorem exists_of_prependFilters {extra : List RowFilter} {s t : Step}
    (h : prependFilters extra s = some t) :
    ∃ filters, s = .filter filters ∧ t = .filter (extra ++ filters) := by
  cases s with
  | filter filters =>
    rw [prependFilters_filter] at h
    cases h
    exact ⟨filters, rfl, rfl⟩
  | transform fields => cases h
  | view queries => cases h
  | sort keys direction => cases h

theorem exists_of_appendTransforms {extra : List Transform} {s t : Step}
    (h : appendTransforms extra s = some t) :
    ∃ fields, s = .transform fields ∧ t = .transform (fields ++ unseen fields extra) := by
  cases s with
  | transform fields =>
    rw [appendTransforms_transform] at h
    cases h
    exact ⟨fields, rfl, rfl⟩
  | filter filters => cases h
  | view queries => cases h
  | sort keys direction => cases h

theorem growsAt_withFilters (p : Plan) (extra : List RowFilter) :
    GrowsAt .filter p.steps (p.withFilters extra).steps := by
  by_cases he : extra = []
  · rw [he, withFilters_nil]
    exact .nowhere p.steps
  rw [p.withFilters_eq he]
  apply growsAt_graft (changesOnly_prependFilters extra) rfl
  intro s t hst
  obtain ⟨filters, rfl, rfl⟩ := exists_of_prependFilters hst
  exact .filter extra filters

theorem growsAt_withTransforms (p : Plan) (extra : List Transform) :
    GrowsAt .transform p.steps (p.withTransforms extra).steps := by
  by_cases he : extra = []
  · rw [he, withTransforms_nil]
    exact .nowhere p.steps
  rw [p.withTransforms_eq he]
  apply growsAt_graft (changesOnly_appendTransforms (distinctBy Transform.key extra)) rfl
  intro s t hst
  obtain ⟨fields, rfl, rfl⟩ := exists_of_appendTransforms hst
  exact .transform fields (unseen fields (distinctBy Transform.key extra))

theorem subset_filters_withFilters (p : Plan) (extra : List RowFilter) :
    extra ⊆ (p.withFilters extra).filters := by
  by_cases he : extra = []
  · rw [he]
    exact List.nil_subset _
  have hstep : ∃ s ∈ (p.withFilters extra).steps, extra ⊆ s.filters := by
    rw [p.withFilters_eq he]
    apply exists_mem_graft (changesOnly_prependFilters extra) (List.Subset.refl extra)
    intro s t hst
    obtain ⟨filters, rfl, rfl⟩ := exists_of_prependFilters hst
    exact List.subset_append_left extra filters
  obtain ⟨s, hs, hextra⟩ := hstep
  intro f hf
  exact List.mem_flatMap.2 ⟨s, hs, hextra hf⟩

theorem exists_key_withTransforms (p : Plan) {extra : List Transform} {t : Transform}
    (ht : t ∈ extra) : ∃ u ∈ (p.withTransforms extra).transforms, u.key = t.key := by
  have he : extra ≠ [] := List.ne_nil_of_mem ht
  have hkept : ∃ d ∈ distinctBy Transform.key extra, d.key = t.key := exists_mem_distinctBy ht
  obtain ⟨d, hd, hkey⟩ := hkept
  have hstep : ∃ s ∈ (p.withTransforms extra).steps, ∃ u ∈ s.transforms, u.key = t.key := by
    rw [p.withTransforms_eq he]
    apply exists_mem_graft (changesOnly_appendTransforms (distinctBy Transform.key extra))
    · exact ⟨d, hd, hkey⟩
    · intro s r hsr
      obtain ⟨fields, rfl, rfl⟩ := exists_of_appendTransforms hsr
      have hany : (fields ++ unseen fields (distinctBy Transform.key extra)).any
          (·.key == t.key) = true := by
        rw [any_unseen, List.any_eq_true]
        exact ⟨d, List.mem_append_right fields hd, by simpa using hkey⟩
      obtain ⟨u, hu, hukey⟩ := List.any_eq_true.1 hany
      exact ⟨u, hu, beq_iff_eq.1 hukey⟩
  obtain ⟨s, hs, u, hu, hkey⟩ := hstep
  exact ⟨u, List.mem_flatMap.2 ⟨s, hs, hu⟩, hkey⟩

end Growth

/-- Grafts of one kind add up, and grafts of two kinds change places unless each of them brings in
a step, where these two steps change places. Each graft keeps the limit and all that is there, and
adds what it is asked for. -/
theorem grafts_add_up (p : Plan) :
    (∀ a b, (p.withTransforms a).withTransforms b = p.withTransforms (a ++ b)) ∧
      (∀ a, (p.withTransforms a).withTransforms a = p.withTransforms a) ∧
      (∀ a b, (p.withFilters a).withFilters b = p.withFilters (b ++ a)) ∧
      (∀ a f, (p.withTransforms a).withFilters f = (p.withFilters f).withTransforms a ↔
        .transform ∈ p.kinds ∨ .filter ∈ p.kinds ∨ a = [] ∨ f = []) ∧
      (∀ a f, (p.withTransforms a).withFilters f = (p.withFilters f).withTransforms a ∨
        (p.withTransforms a).withFilters f =
            { p with steps := .filter f :: .transform (distinctBy Transform.key a) :: p.steps } ∧
          (p.withFilters f).withTransforms a =
            { p with steps := .transform (distinctBy Transform.key a) :: .filter f :: p.steps }) ∧
      (∀ a, (p.withTransforms a).limit = p.limit ∧
        GrowsAt .transform p.steps (p.withTransforms a).steps ∧
        ∀ t ∈ a, ∃ u ∈ (p.withTransforms a).transforms, u.key = t.key) ∧
      ∀ f, (p.withFilters f).limit = p.limit ∧
        GrowsAt .filter p.steps (p.withFilters f).steps ∧ f ⊆ (p.withFilters f).filters := by
  have hfront := @withFilters_withTransforms_of_notMem p
  have hcomm := @withFilters_withTransforms_comm p
  refine ⟨p.withTransforms_withTransforms, p.withTransforms_self, p.withFilters_withFilters, ?_, ?_,
    ?_, ?_⟩
  · intro a f
    refine ⟨?_, hcomm⟩
    intro heq
    by_contra hnone
    simp only [not_or] at hnone
    obtain ⟨htransform, hfilter, ha, hf⟩ := hnone
    obtain ⟨hleft, hright⟩ := hfront ha hf htransform hfilter
    rw [hleft, hright] at heq
    simp at heq
  · intro a f
    by_cases hshared : .transform ∈ p.kinds ∨ .filter ∈ p.kinds ∨ a = [] ∨ f = []
    · exact .inl (hcomm hshared)
    · simp only [not_or] at hshared
      obtain ⟨htransform, hfilter, ha, hf⟩ := hshared
      exact .inr (hfront ha hf htransform hfilter)
  · intro a
    exact ⟨p.limit_withTransforms a, p.growsAt_withTransforms a,
      fun t ht => p.exists_key_withTransforms ht⟩
  · intro f
    exact ⟨p.limit_withFilters f, p.growsAt_withFilters f, p.subset_filters_withFilters f⟩

end Plan

end ChartQuery
