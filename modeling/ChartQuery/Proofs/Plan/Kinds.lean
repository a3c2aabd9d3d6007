import ChartQuery.Proofs.Plan.Layout
import Mathlib.Data.List.Sublists

namespace ChartQuery

/-- Something to be added to a plan. -/
inductive Graft where
  | filters (extra : List RowFilter)
  | transforms (extra : List Transform)

namespace Graft

def kind : Graft → StepKind
  | filters _ => .filter
  | transforms _ => .transform

def isEmpty : Graft → Bool
  | filters extra => extra.isEmpty
  | transforms extra => extra.isEmpty

def addsTransforms : Graft → Bool
  | filters _ => false
  | transforms extra => !extra.isEmpty

end Graft

/-- The kinds with the given one among them, in front if it was missing. -/
def StepKind.ensure (k : StepKind) (kinds : List StepKind) : List StepKind :=
  if k ∈ kinds then kinds else k :: kinds

theorem StepKind.ensure_of_mem {k : StepKind} {kinds : List StepKind} (h : k ∈ kinds) :
    k.ensure kinds = kinds :=
  if_pos h

theorem StepKind.mem_ensure (k : StepKind) (kinds : List StepKind) : k ∈ k.ensure kinds := by
  by_cases hk : k ∈ kinds
  · rw [ensure_of_mem hk]
    exact hk
  · simp [ensure, hk]

theorem StepKind.mem_ensure_of_mem {j : StepKind} (k : StepKind) {kinds : List StepKind}
    (h : j ∈ kinds) : j ∈ k.ensure kinds := by
  by_cases hk : k ∈ kinds
  · rw [ensure_of_mem hk]
    exact h
  · simp [ensure, hk, h]

theorem StepKind.ensure_append {k : StepKind} {kinds rest : List StepKind} (h : k ∉ rest) :
    k.ensure (kinds ++ rest) = k.ensure kinds ++ rest := by
  by_cases hk : k ∈ kinds
  · simp [ensure, hk]
  · simp [ensure, hk, h]

namespace Plan

def add (p : Plan) : Graft → Plan
  | .filters extra => p.withFilters extra
  | .transforms extra => p.withTransforms extra

def addAll (p : Plan) (gs : List Graft) : Plan := gs.foldl add p

/-- The change is made to all steps of one kind. It keeps the kind, and gives no empty step. -/
structure ChangesOnly (k : StepKind) (change : Step → Option Step) : Prop where
  eq_none : ∀ s : Step, s.kind ≠ k → change s = none
  eq_some : ∀ s : Step, s.kind = k →
    ∃ t, change s = some t ∧ t.kind = k ∧ (s.isEmpty = false → t.isEmpty = false)

theorem changesOnly_prependFilters (extra : List RowFilter) :
    ChangesOnly .filter (prependFilters extra) where
  eq_none _ h := prependFilters_eq_none h
  eq_some s h := by
    cases s with
    | filter filters =>
      refine ⟨.filter (extra ++ filters), rfl, rfl, ?_⟩
      simp +contextual [Step.isEmpty]
    | transform fields => cases h
    | view queries => cases h
    | sort keys direction => cases h

theorem changesOnly_appendTransforms (extra : List Transform) :
    ChangesOnly .transform (appendTransforms extra) where
  eq_none s h := by
    cases s with
    | transform fields => exact absurd rfl h
    | filter filters => rfl
    | view queries => rfl
    | sort keys direction => rfl
  eq_some s h := by
    cases s with
    | transform fields =>
      refine ⟨_, rfl, rfl, ?_⟩
      simp +contextual [Step.isEmpty]
    | filter filters => cases h
    | view queries => cases h
    | sort keys direction => cases h

section Graft

variable {k : StepKind} {change : Step → Option Step} {new : Step} {steps : List Step}

theorem ChangesOnly.of_eq_some (h : ChangesOnly k change) {s t : Step} (hst : change s = some t) :
    s.kind = k ∧ t.kind = k ∧ (s.isEmpty = false → t.isEmpty = false) := by
  have hs : s.kind = k := by
    by_contra hne
    rw [h.eq_none s hne] at hst
    cases hst
  obtain ⟨u, hu, ht, hempty⟩ := h.eq_some s hs
  rw [hst] at hu
  cases hu
  exact ⟨hs, ht, hempty⟩

/-- A graft changes the first step of its kind, or puts a new one in front of steps that have
none of that kind. -/
theorem graft_cases (h : ChangesOnly k change) (new : Step) (steps : List Step) :
    (k ∉ steps.map Step.kind ∧ graft change new steps = new :: steps) ∨
      ∃ before s t after, steps = before ++ s :: after ∧
        graft change new steps = before ++ t :: after ∧ k ∉ before.map Step.kind ∧
        change s = some t := by
  by_cases hk : k ∈ steps.map Step.kind
  · right
    obtain ⟨kinds, kinds', hmap, hfirst⟩ := List.eq_append_cons_of_mem hk
    obtain ⟨before, steps', rfl, rfl, hrest⟩ := List.map_eq_append_iff.1 hmap
    obtain ⟨s, after, rfl, hs, _⟩ := List.map_eq_cons_iff.1 hrest
    obtain ⟨t, hst, _⟩ := h.eq_some s hs
    have hnone : ∀ r ∈ before, change r = none := by
      intro r hr
      apply h.eq_none
      rintro rfl
      exact hfirst (List.mem_map_of_mem hr)
    refine ⟨before, s, t, after, rfl, ?_, hfirst, hst⟩
    rw [graft, updateFirst_append before _ hnone, updateFirst_cons_some hst, Option.map_some,
      Option.getD_some]
  · left
    have hnone : ∀ s ∈ steps, change s = none := by
      intro s hs
      apply h.eq_none
      intro hsk
      exact hk (hsk ▸ List.mem_map_of_mem hs)
    refine ⟨hk, ?_⟩
    rw [graft, updateFirst_eq_none hnone, Option.getD_none]

theorem kinds_graft (h : ChangesOnly k change) (hnew : new.kind = k) :
    (graft change new steps).map Step.kind = k.ensure (steps.map Step.kind) := by
  rcases graft_cases h new steps with ⟨hk, hg⟩ | ⟨before, s, t, after, rfl, hg, _, hst⟩
  · rw [hg, List.map_cons, hnew, StepKind.ensure, if_neg hk]
  · obtain ⟨hs, ht, _⟩ := h.of_eq_some hst
    have hmem : k ∈ (before ++ s :: after).map Step.kind := by simp [hs]
    rw [hg, StepKind.ensure_of_mem hmem]
    simp [hs, ht]

theorem not_isEmpty_of_mem_graft (h : ChangesOnly k change) (hnew : new.isEmpty = false)
    (hsteps : ∀ s ∈ steps, s.isEmpty = false) :
    ∀ s ∈ graft change new steps, s.isEmpty = false := by
  rcases graft_cases h new steps with ⟨_, hg⟩ | ⟨before, s, t, after, rfl, hg, _, hst⟩
  · rw [hg, List.forall_mem_cons]
    exact ⟨hnew, hsteps⟩
  · obtain ⟨_, _, ht⟩ := h.of_eq_some hst
    rw [hg]
    simp only [List.forall_mem_append, List.forall_mem_cons] at hsteps ⊢
    exact ⟨hsteps.1, ht hsteps.2.1, hsteps.2.2⟩

end Graft

section Add

variable (p : Plan)

theorem add_of_isEmpty {g : Graft} (h : g.isEmpty = true) : p.add g = p := by
  cases g with
  | filters extra =>
    have he : extra = [] := List.isEmpty_iff.1 h
    rw [he, add, withFilters_nil]
  | transforms extra =>
    have he : extra = [] := List.isEmpty_iff.1 h
    rw [he]
    rfl

theorem steps_add {g : Graft} (h : g.isEmpty = false) :
    ∃ change new, ChangesOnly g.kind change ∧ new.kind = g.kind ∧ new.isEmpty = false ∧
      (p.add g).steps = graft change new p.steps := by
  cases g with
  | filters extra =>
    have he : extra ≠ [] := by simpa [Graft.isEmpty] using h
    exact ⟨prependFilters extra, .filter extra, changesOnly_prependFilters extra, rfl, h,
      steps_withFilters p he⟩
  | transforms extra =>
    have hd : (distinctBy Transform.key extra).isEmpty = false := by
      cases extra with
      | nil => cases h
      | cons t extra => rfl
    refine ⟨appendTransforms (distinctBy Transform.key extra),
      .transform (distinctBy Transform.key extra), changesOnly_appendTransforms _, rfl, hd, ?_⟩
    simp [add, withTransforms, hd]

theorem kinds_add (g : Graft) :
    (p.add g).kinds = if g.isEmpty then p.kinds else g.kind.ensure p.kinds := by
  cases h : g.isEmpty with
  | true => simp [p.add_of_isEmpty h]
  | false =>
    obtain ⟨change, new, hchange, hnew, _, hsteps⟩ := p.steps_add h
    rw [kinds, hsteps, kinds_graft hchange hnew]
    rfl

theorem not_isEmpty_of_mem_add (h : ∀ s ∈ p.steps, s.isEmpty = false) (g : Graft) :
    ∀ s ∈ (p.add g).steps, s.isEmpty = false := by
  cases hg : g.isEmpty with
  | true =>
    rw [p.add_of_isEmpty hg]
    exact h
  | false =>
    obtain ⟨change, new, hchange, _, hnew, hsteps⟩ := p.steps_add hg
    rw [hsteps]
    exact not_isEmpty_of_mem_graft hchange hnew h

theorem not_isEmpty_of_mem_addAll (h : ∀ s ∈ p.steps, s.isEmpty = false) (gs : List Graft) :
    ∀ s ∈ (p.addAll gs).steps, s.isEmpty = false := by
  induction gs generalizing p with
  | nil => exact h
  | cons g gs ih => exact ih (p.add g) (p.not_isEmpty_of_mem_add h g)

end Add

/-- Where there is a filter step already, only transforms bring in a new kind. -/
theorem kinds_addAll_of_filter {p : Plan} (h : .filter ∈ p.kinds) (gs : List Graft) :
    (p.addAll gs).kinds =
      if gs.any Graft.addsTransforms then StepKind.ensure .transform p.kinds else p.kinds := by
  induction gs generalizing p with
  | nil => rfl
  | cons g gs ih =>
    have hcons : p.addAll (g :: gs) = (p.add g).addAll gs := rfl
    cases hg : g.addsTransforms with
    | false =>
      have hsame : (p.add g).kinds = p.kinds := by
        rw [kinds_add]
        cases g with
        | filters extra => simp [Graft.kind, StepKind.ensure_of_mem h]
        | transforms extra => simp_all [Graft.addsTransforms, Graft.isEmpty]
      rw [hcons, ih (hsame ▸ h), hsame, List.any_cons, hg, Bool.false_or]
    | true =>
      have hnew : (p.add g).kinds = StepKind.ensure .transform p.kinds := by
        rw [kinds_add]
        cases g with
        | filters extra => cases hg
        | transforms extra => simp_all [Graft.addsTransforms, Graft.isEmpty, Graft.kind]
      have hfilter : .filter ∈ (p.add g).kinds := by
        rw [hnew]
        exact StepKind.mem_ensure_of_mem .transform h
      rw [hcons, ih hfilter, hnew, List.any_cons, hg, Bool.true_or, if_pos rfl,
        StepKind.ensure_of_mem (StepKind.mem_ensure .transform p.kinds), ite_self]

end Plan

namespace StepKind

/-- The kinds of the steps of a compiled plan, if it has them all. -/
def canonical : List StepKind := [.filter, .transform, .filter, .view, .sort]

/-- The kinds ahead of a query are in the canonical order, and so they are with a missing kind in
front of them. -/
structure HaveRoom (kinds : List StepKind) : Prop where
  sublist : kinds.Sublist [.filter, .transform, .filter]
  ne_filters : kinds ≠ [.filter, .filter]

theorem HaveRoom.ensure {kinds : List StepKind} (h : HaveRoom kinds) (g : Graft) :
    HaveRoom (g.kind.ensure kinds) := by
  have hall : ∀ kinds ∈ [StepKind.filter, .transform, .filter].sublists,
      kinds ≠ [.filter, .filter] → ∀ k ∈ [StepKind.filter, .transform],
        k.ensure kinds ∈ [StepKind.filter, .transform, .filter].sublists ∧
          k.ensure kinds ≠ [.filter, .filter] := by
    decide
  have hk : g.kind ∈ [StepKind.filter, .transform] := by
    cases g with
    | filters extra => simp [Graft.kind]
    | transforms extra => simp [Graft.kind]
  obtain ⟨hsub, hne⟩ := hall kinds (List.mem_sublists.2 h.sublist) h.ne_filters g.kind hk
  exact ⟨List.mem_sublists.1 hsub, hne⟩

end StepKind

/-- Where the kinds ahead of a query have room, they still do after any number of grafts. -/
theorem Plan.kinds_addAll_of_haveRoom {p : Plan} {ahead behind : List StepKind}
    (hp : p.kinds = ahead ++ behind) (h : StepKind.HaveRoom ahead)
    (hb : ∀ g : Graft, g.kind ∉ behind) (gs : List Graft) :
    ∃ ahead', StepKind.HaveRoom ahead' ∧ (p.addAll gs).kinds = ahead' ++ behind := by
  induction gs generalizing p ahead with
  | nil => exact ⟨ahead, h, hp⟩
  | cons g gs ih =>
    cases hg : g.isEmpty with
    | true =>
      have hsame : (p.add g).kinds = ahead ++ behind := by rw [p.add_of_isEmpty hg, hp]
      exact ih hsame h
    | false =>
      have hnew : (p.add g).kinds = g.kind.ensure ahead ++ behind := by
        rw [kinds_add, hg, hp, StepKind.ensure_append (hb g)]
        rfl
      exact ih hnew (h.ensure g)

end ChartQuery
