import ChartQuery.Proofs.Compile.Shape
import ChartQuery.Proofs.Plan.Meaning

namespace ChartQuery

namespace Plan

def computedKeys (p : Plan) : List String := (p.steps.flatMap Step.transforms).map Transform.key

def filtersAhead (p : Plan) : List RowFilter :=
  (p.steps.takeWhile (·.kind != .transform)).flatMap Step.filters

def filtersBehind (p : Plan) : List RowFilter :=
  (p.steps.dropWhile (·.kind != .transform)).flatMap Step.filters

/-- The filter is not on a computed field, or it will stand behind the transform, or it stands on
both sides of it already. -/
def Admits (p : Plan) (f : RowFilter) : Prop :=
  f.fid ∈ p.computedKeys →
    (p.filtersAhead = [] ∧ p.filtersBehind ≠ []) ∨ (f ∈ p.filtersAhead ∧ f ∈ p.filtersBehind)

/-- For every reading of the plan, more filters do to the rows that reach the queries what the
filters say. -/
def Grafts (p : Plan) (extra : List RowFilter) : Prop :=
  ∀ (V : Type) (m : Meaning V), m.IsStrict → ∀ rows : List (Columns V),
    m.viewRows (p.withFilters extra) rows = (m.viewRows p rows).filter (m.acceptsAll extra)

namespace IsLaidOut

variable {p : Plan} {raw computed extra : List RowFilter} {ts : List Transform}

theorem computedKeys_eq (h : p.IsLaidOut raw ts computed) :
    p.computedKeys = ts.map Transform.key :=
  congrArg (List.map Transform.key) h.transforms_eq

theorem steps_split (h : p.IsLaidOut raw ts computed) (ht : ts ≠ []) :
    p.steps.takeWhile (·.kind != .transform) = (Step.filter raw).kept ∧
      (p.steps.dropWhile (·.kind != .transform)).flatMap Step.filters = computed := by
  obtain ⟨queries, rest, hrest, hp⟩ := h
  have hraw : ∀ s ∈ (Step.filter raw).kept, (s.kind != .transform) = true := by
    intro s hs
    rw [(Step.mem_kept.1 hs).1]
    rfl
  have hkept : (Step.transform ts).kept = [.transform ts] := by
    apply Step.kept_of_not_isEmpty
    simp [Step.isEmpty, ht]
  have hsort : rest.flatMap Step.filters = [] := flatMap_sorts (fun _ _ => rfl) hrest
  rw [hp, prepared, hkept]
  simp only [List.append_assoc, List.cons_append, List.nil_append]
  constructor
  · rw [List.takeWhile_append_of_pos hraw, List.takeWhile_cons_of_neg (by simp [Step.kind])]
    exact List.append_nil _
  · rw [List.dropWhile_append_of_pos hraw, List.dropWhile_cons_of_neg (by simp [Step.kind])]
    simp [flatMap_filters_kept, hsort, Step.filters]

theorem filtersAhead_eq (h : p.IsLaidOut raw ts computed) (ht : ts ≠ []) :
    p.filtersAhead = raw := by
  rw [filtersAhead, (h.steps_split ht).1, flatMap_filters_kept]

theorem filtersBehind_eq (h : p.IsLaidOut raw ts computed) (ht : ts ≠ []) :
    p.filtersBehind = computed :=
  (h.steps_split ht).2

section Meaning

variable {V : Type} (m : Meaning V)

theorem viewRows_withFilters_behind (h : p.IsLaidOut [] ts computed) (hc : computed ≠ [])
    (rows : List (Columns V)) : m.viewRows (p.withFilters extra) rows
      = (m.viewRows p rows).filter (m.acceptsAll extra) := by
  rw [m.viewRows_of_isLaidOut h, m.viewRows_of_isLaidOut (h.withFilters_behind hc extra),
    List.filter_filter]
  apply List.filter_congr
  intro r _
  exact m.acceptsAll_append extra computed r

/-- Filters ahead of a transform have their effect if no row that is kept anyway can tell the
columns ahead of it from those behind it. -/
theorem viewRows_withFilters_ahead_iff (h : p.IsLaidOut raw ts computed)
    (hr : raw ≠ [] ∨ computed = []) :
    (∀ rows : List (Columns V), m.viewRows (p.withFilters extra) rows
        = (m.viewRows p rows).filter (m.acceptsAll extra)) ↔
      ∀ r, m.acceptsAll raw r = true → m.acceptsAll computed (m.extendAll ts r) = true →
        m.acceptsAll extra r = m.acceptsAll extra (m.extendAll ts r) := by
  have hnew := m.viewRows_of_isLaidOut (h.withFilters_ahead hr extra)
  have hold := m.viewRows_of_isLaidOut h
  constructor
  · intro heq r hraw hcomputed
    have hone := heq [r]
    rw [hnew, hold] at hone
    simp only [List.filter_cons, List.filter_nil, Meaning.acceptsAll_append, hraw,
      Bool.and_true, List.map_cons, List.map_nil, hcomputed, if_true] at hone
    cases hb : m.acceptsAll extra r with
    | true =>
      cases ha : m.acceptsAll extra (m.extendAll ts r) with
      | true => rfl
      | false => simp [hb, ha, hcomputed] at hone
    | false =>
      cases ha : m.acceptsAll extra (m.extendAll ts r) with
      | true => simp [hb, ha] at hone
      | false => rfl
  · intro hsame rows
    rw [hnew, hold, List.filter_map, List.filter_map, List.filter_map, List.filter_filter,
      List.filter_filter, List.filter_filter]
    apply congrArg
    apply List.filter_congr
    intro r _
    simp only [Function.comp_apply, Meaning.acceptsAll_append]
    cases hraw : m.acceptsAll raw r with
    | false => simp
    | true =>
      cases hcomputed : m.acceptsAll computed (m.extendAll ts r) with
      | false => simp
      | true => simp [hsame r hraw hcomputed]

end Meaning

theorem admits_iff (h : p.IsLaidOut raw ts computed) (f : RowFilter) : p.Admits f ↔
    (f.fid ∈ ts.map Transform.key →
      (raw = [] ∧ computed ≠ []) ∨ (f ∈ raw ∧ f ∈ computed)) := by
  rw [Admits, h.computedKeys_eq]
  by_cases ht : ts = []
  · simp [ht]
  · rw [h.filtersAhead_eq ht, h.filtersBehind_eq ht]

end IsLaidOut

end Plan

section Telling

/-- A reading in which false fails the condition of `f` and nothing else fails a condition; what is
computed depends on the key alone. -/
def Meaning.telling (f : RowFilter) (g : String → Bool) : Meaning Bool where
  holds c x := x.any fun b => b || c != f.condition
  compute t _ := g t.key

def Columns.allTrue : Columns Bool := fun _ => some true

def Columns.falseAt (fid : String) : Columns Bool := fun k => some (k != fid)

namespace Meaning

variable (f : RowFilter) (g : String → Bool)

theorem isStrict_telling : (telling f g).IsStrict := fun _ => rfl

theorem accepts_telling {r : Columns Bool} {h : RowFilter} {b : Bool} (hr : r h.fid = some b) :
    (telling f g).accepts r h = (b || h.condition != f.condition) := by
  rw [accepts, hr]
  rfl

theorem acceptsAll_allTrue (fs : List RowFilter) :
    (telling f g).acceptsAll fs Columns.allTrue = true := by
  rw [acceptsAll, List.all_eq_true]
  intro h _
  have hr : Columns.allTrue h.fid = some true := rfl
  rw [accepts_telling f g hr, Bool.true_or]

theorem accepts_falseAt (h : RowFilter) :
    (telling f g).accepts (Columns.falseAt f.fid) h = true ↔ h ≠ f := by
  have hr : Columns.falseAt f.fid h.fid = some (h.fid != f.fid) := rfl
  rw [accepts_telling f g hr, Bool.or_eq_true, bne_iff_ne, bne_iff_ne]
  constructor
  · intro hne he
    subst he
    rcases hne with hne | hne
    · exact hne rfl
    · exact hne rfl
  · intro hne
    by_contra hboth
    rw [not_or, not_not, not_not] at hboth
    cases f
    cases h
    exact hne (congrArg₂ RowFilter.mk hboth.1 hboth.2)

theorem acceptsAll_falseAt (fs : List RowFilter) :
    (telling f g).acceptsAll fs (Columns.falseAt f.fid) = true ↔ f ∉ fs := by
  rw [acceptsAll, List.all_eq_true]
  constructor
  · intro hall hf
    exact (accepts_falseAt f g f).1 (hall f hf) rfl
  · intro hf h hh
    rw [accepts_falseAt]
    intro he
    exact hf (he ▸ hh)

theorem extendAll_telling (ts : List Transform) (r : Columns Bool) (k : String) :
    (telling f g).extendAll ts r k = if k ∈ ts.map Transform.key then some (g k) else r k :=
  extendAll_of_const _ (fun _ _ => rfl) ts r k

variable {f} {ts : List Transform}

theorem extendAll_falseAt (hk : f.fid ∈ ts.map Transform.key) :
    (telling f fun _ => true).extendAll ts (Columns.falseAt f.fid) = Columns.allTrue := by
  funext k
  rw [extendAll_telling]
  split
  · rfl
  · have hne : k ≠ f.fid := fun he => absurd (he ▸ hk) ‹k ∉ _›
    simp [Columns.falseAt, Columns.allTrue, hne]

theorem extendAll_allTrue (hk : f.fid ∈ ts.map Transform.key) :
    (telling f (· != f.fid)).extendAll ts Columns.allTrue = Columns.falseAt f.fid := by
  funext k
  rw [extendAll_telling]
  split
  · rfl
  · have hne : k ≠ f.fid := fun he => absurd (he ▸ hk) ‹k ∉ _›
    simp [Columns.falseAt, Columns.allTrue, hne]

end Meaning

end Telling

namespace Plan.IsLaidOut

variable {p : Plan} {raw computed extra : List RowFilter} {ts : List Transform}

theorem mem_of_grafts (h : p.IsLaidOut raw ts computed) (hr : raw ≠ [] ∨ computed = [])
    (hg : p.Grafts extra) {f : RowFilter} (hf : f ∈ extra) (hk : f.fid ∈ ts.map Transform.key) :
    f ∈ raw ∧ f ∈ computed := by
  constructor
  · -- a row that fails the filter until its column is computed
    by_contra hraw
    let m := Meaning.telling f fun _ => true
    have hbehind : m.extendAll ts (Columns.falseAt f.fid) = Columns.allTrue :=
      Meaning.extendAll_falseAt hk
    have hsame := (h.viewRows_withFilters_ahead_iff m hr).1
      (hg Bool m (Meaning.isStrict_telling f _)) (Columns.falseAt f.fid)
      ((Meaning.acceptsAll_falseAt f _ raw).2 hraw)
      (by rw [hbehind]; exact Meaning.acceptsAll_allTrue f _ computed)
    rw [hbehind, Meaning.acceptsAll_allTrue] at hsame
    exact (Meaning.acceptsAll_falseAt f _ extra).1 hsame hf
  · -- a row that meets the filter until its column is computed
    by_contra hcomputed
    let m := Meaning.telling f (· != f.fid)
    have hbehind : m.extendAll ts Columns.allTrue = Columns.falseAt f.fid :=
      Meaning.extendAll_allTrue hk
    have hsame := (h.viewRows_withFilters_ahead_iff m hr).1
      (hg Bool m (Meaning.isStrict_telling f _)) Columns.allTrue
      (Meaning.acceptsAll_allTrue f _ raw)
      (by rw [hbehind]; exact (Meaning.acceptsAll_falseAt f _ computed).2 hcomputed)
    rw [hbehind, Meaning.acceptsAll_allTrue] at hsame
    exact (Meaning.acceptsAll_falseAt f _ extra).1 hsame.symm hf

theorem grafts_of_mem (h : p.IsLaidOut raw ts computed) (hr : raw ≠ [] ∨ computed = [])
    (hmem : ∀ f ∈ extra, f.fid ∈ ts.map Transform.key → f ∈ raw ∧ f ∈ computed) :
    p.Grafts extra := by
  intro V m _
  rw [h.viewRows_withFilters_ahead_iff m hr]
  intro r hraw hcomputed
  have hsame : ∀ f ∈ extra, m.accepts r f = m.accepts (m.extendAll ts r) f := by
    intro f hf
    by_cases hk : f.fid ∈ ts.map Transform.key
    · obtain ⟨hfr, hfc⟩ := hmem f hf hk
      rw [m.accepts_of_mem hraw hfr, m.accepts_of_mem hcomputed hfc]
    · exact (m.accepts_extendAll_of_notMem r hk).symm
  rw [Bool.eq_iff_iff, Meaning.acceptsAll, Meaning.acceptsAll, List.all_eq_true, List.all_eq_true]
  exact forall₂_congr fun f hf => by rw [hsame f hf]

theorem grafts_iff (h : p.IsLaidOut raw ts computed) :
    p.Grafts extra ↔ ∀ f ∈ extra, p.Admits f := by
  by_cases hb : raw = [] ∧ computed ≠ []
  · obtain ⟨rfl, hc⟩ := hb
    constructor
    · intro _ f _
      rw [h.admits_iff]
      intro _
      exact Or.inl ⟨rfl, hc⟩
    · intro _ V m _ rows
      exact h.viewRows_withFilters_behind m hc rows
  · have hr : raw ≠ [] ∨ computed = [] := by
      rw [not_and_or, not_not] at hb
      exact hb
    constructor
    · intro hg f hf
      rw [h.admits_iff]
      intro hk
      exact Or.inr (h.mem_of_grafts hr hg hf hk)
    · intro ha
      apply h.grafts_of_mem hr
      intro f hf hk
      exact ((h.admits_iff f).1 (ha f hf) hk).resolve_left hb

end Plan.IsLaidOut

namespace View

/-- More filters on a compiled plan act as if they stood right before the query just when the plan
admits each of them. -/
theorem grafts_iff_of_compile {v : View} {s : Settings} {p : Plan} (h : v.compile s = .ok p)
    (extra : List RowFilter) : p.Grafts extra ↔ ∀ f ∈ extra, p.Admits f := by
  obtain ⟨g, _, rfl⟩ := compile_eq_ok.1 h
  exact g.isLaidOut_plan.grafts_iff

end View

section Gain

def gainOf : Expression := ⟨">", [.field "sales", .field "cost"], "gain"⟩

def gain : Field := .ofExpression "gain" .dimension gainOf

def gains : RowFilter := ⟨"gain", .oneOf [.bool true]⟩

def dear : RowFilter := ⟨"cost", .range (.ofInt 10) (.ofInt 20)⟩

def gainView (filters : List ShelfFilter) : View where
  filters := filters
  allFields := [.new "sales" .measure, .new "cost" .measure, gain]
  dimensions := [gain]
  measures := []
  aggregates := false
  sort := .unsorted
  folds := []
  limit := none

def gainPlan (filters : List Step) : Plan :=
  ⟨.transform [⟨"gain", gainOf⟩] :: filters ++ [.view [.raw ["gain"]]], none⟩

/-- With a filter on the computed field already there, another one is safe. -/
theorem View.grafts_behind_gain :
    (gainView [⟨gain, some (.oneOf [.bool false])⟩]).compile .default
        = .ok (gainPlan [.filter [⟨"gain", .oneOf [.bool false]⟩]]) ∧
      (gainPlan [.filter [⟨"gain", .oneOf [.bool false]⟩]]).Grafts [gains, dear] := by
  have hc : (gainView [⟨gain, some (.oneOf [.bool false])⟩]).compile .default
      = .ok (gainPlan [.filter [⟨"gain", .oneOf [.bool false]⟩]]) := by with_unfolding_all rfl
  refine ⟨hc, (View.grafts_iff_of_compile hc [gains, dear]).2 ?_⟩
  intro f _ _
  exact Or.inl ⟨rfl, List.cons_ne_nil _ _⟩

def gainMeaning : Meaning Literal where
  holds
    | .oneOf values, x => x.any (decide <| · ∈ values)
    | _, _ => false
  compute _ _ := .bool true

def soldRow : Columns Literal := fun k =>
  if k ∈ ["sales", "cost"] then some (.number (.ofInt 10)) else none

/-- Without one, the new filter looks for a column that is not there yet. -/
theorem View.not_grafts_gain :
    (gainView []).compile .default = .ok (gainPlan []) ∧ ¬ (gainPlan []).Grafts [gains] := by
  have hc : (gainView []).compile .default = .ok (gainPlan []) := by with_unfolding_all rfl
  refine ⟨hc, ?_⟩
  intro hg
  have hrows := hg Literal gainMeaning (fun c => by cases c <;> rfl) [soldRow]
  have hahead : gainMeaning.viewRows ((gainPlan []).withFilters [gains]) [soldRow] = [] := by
    decide
  have hbehind : ((gainMeaning.viewRows (gainPlan []) [soldRow]).filter
      (gainMeaning.acceptsAll [gains])).length = 1 := by
    decide
  rw [← hrows, hahead] at hbehind
  exact absurd hbehind (by decide)

end Gain

end ChartQuery
