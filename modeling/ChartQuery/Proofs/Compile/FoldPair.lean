import ChartQuery.Proofs.Compile.Sorting

namespace ChartQuery

/-- One of the two fields that stand for the folded ones. -/
def Settings.IsFoldFid (s : Settings) (fid : String) : Prop :=
  fid = s.foldKey ∨ fid = s.foldValue

/-- Neither the query names the field, nor a sort of the rows that it gives. A sort of aggregates
names columns of the result. -/
def Plan.Hides (p : Plan) (fid : String) : Prop :=
  ∃ q, p.queries? = some [q] ∧ ¬ q.Names fid ∧
    (q.isAggregate = false → ∀ keys direction, .sort keys direction ∈ p.steps → fid ∉ keys)

def Shelves.shelf (shelves : Shelves) : Role → List Field
  | .dimension => shelves.dimensions
  | .measure => shelves.measures

namespace View

variable {v : View} {s : Settings} {p : Plan} {shelves : Shelves}

/-- A field of the fold pair that is left over on the shelf of the role. -/
inductive Strays (v : View) (s : Settings) : Role → Field → Prop
  | value {f : Field} (hf : f ∈ v.dimensions) (hfid : f.fid = s.foldValue)
      (hne : s.foldValue ≠ s.foldKey) : v.Strays s .dimension f
  | key {f : Field} (hf : f ∈ v.measures) (hfid : f.fid = s.foldKey)
      (hne : s.foldKey ≠ s.foldValue) : v.Strays s .measure f
  | folded {value f : Field} {fold : String} (hvalue : v.IsFoldedBy s value)
      (hfold : fold ∈ v.folds) (hpair : s.IsFoldFid fold) (hf : v.FoldsTo value.agg fold f) :
      v.Strays s f.role f

theorem FoldsTo.fid_eq {agg : Option String} {fold : String} {f : Field}
    (h : v.FoldsTo agg fold f) : f.fid = fold := by
  obtain ⟨g, hg, rfl⟩ := h
  exact hg.prop

theorem mem_folded_iff {agg : Option String} {folds : List String} {fields : List Field}
    (h : List.Forall₂ (v.FoldsTo agg) folds fields) {f : Field} :
    f ∈ fields ↔ ∃ fold ∈ folds, v.FoldsTo agg fold f := by
  have hfolds : folds.map (v.foldedField .default agg) = fields.map .ok :=
    mapM_eq_ok_iff.1 (mapM_foldedField_eq_ok_iff.2 h)
  have hf : f ∈ fields ↔ .ok f ∈ folds.map (v.foldedField .default agg) := by
    rw [hfolds, List.mem_map_of_injective fun _ _ => Except.ok.inj]
  rw [hf, List.mem_map]
  simp only [foldsTo_iff (s := .default)]

theorem mem_shelf_foldl_push {fields : List Field} {role : Role} {f : Field} :
    f ∈ (fields.foldl Shelves.push shelves).shelf role ↔
      f ∈ shelves.shelf role ∨ f ∈ fields ∧ f.role = role := by
  rw [Shelves.foldl_push]
  cases role with
  | dimension => simp [Shelves.shelf, Field.isDimension]
  | measure =>
    have hrole : f.role ≠ .dimension ↔ f.role = .measure := by
      cases f.role with
      | dimension => simp
      | measure => simp
    simp [Shelves.shelf, Field.isDimension, ← hrole]

/-- A field stands on a shelf just if it was there and is not taken off, or a fold brings it. -/
theorem Unfolds.mem_shelf_iff (h : v.Unfolds s shelves) {role : Role} {f : Field} :
    f ∈ shelves.shelf role ↔ f ∈ (v.withoutFolds s).shelf role ∨
      ∃ value fold, v.IsFoldedBy s value ∧ fold ∈ v.folds ∧ v.FoldsTo value.agg fold f ∧
        f.role = role := by
  cases h with
  | plain h =>
    constructor
    · intro hf
      exact .inl hf
    · intro hf
      rcases hf with hf | ⟨value, -, hvalue, -⟩
      · exact hf
      · exact absurd hvalue (h value)
  | @folded value fields h hfields =>
    rw [mem_shelf_foldl_push, mem_folded_iff hfields]
    constructor
    · intro hf
      rcases hf with hf | ⟨⟨fold, hfold, hf⟩, hrole⟩
      · exact .inl hf
      · exact .inr ⟨value, fold, h, hfold, hf, hrole⟩
    · intro hf
      rcases hf with hf | ⟨value', fold, h', hfold, hf, hrole⟩
      · exact .inl hf
      · obtain rfl : value = value' := h.2.unique h'.2
        exact .inr ⟨⟨fold, hfold, hf⟩, hrole⟩

/-- Taking one field of the pair off a shelf leaves the other one there, if they are two. -/
theorem mem_filter_fid_ne_iff {fields : List Field} {f : Field} {fid other : String}
    (hpair : f.fid = fid ∨ f.fid = other) :
    f ∈ fields.filter (·.fid != fid) ↔ f ∈ fields ∧ f.fid = other ∧ other ≠ fid := by
  rw [List.mem_filter, bne_iff_ne]
  refine and_congr_right fun _ => ⟨fun hne => ?_, fun hother => ?_⟩
  · have hother : f.fid = other := hpair.resolve_left hne
    exact ⟨hother, hother ▸ hne⟩
  · rw [hother.1]
    exact hother.2

/-- The left over fields are those of the pair that stand on the unfolded shelves. -/
theorem Unfolds.strays_iff (h : v.Unfolds s shelves) {role : Role} {f : Field} :
    v.Strays s role f ↔ f ∈ shelves.shelf role ∧ s.IsFoldFid f.fid := by
  rw [h.mem_shelf_iff]
  constructor
  · intro hstray
    cases hstray with
    | value hf hfid hne =>
      have hpair : s.IsFoldFid f.fid := .inr hfid
      exact ⟨.inl ((mem_filter_fid_ne_iff hpair).2 ⟨hf, hfid, hne⟩), hpair⟩
    | key hf hfid hne =>
      have hpair : s.IsFoldFid f.fid := .inl hfid
      exact ⟨.inl ((mem_filter_fid_ne_iff hpair.symm).2 ⟨hf, hfid, hne⟩), hpair⟩
    | @folded value _ fold hvalue hfold hpair hf =>
      exact ⟨.inr ⟨value, fold, hvalue, hfold, hf, rfl⟩, hf.fid_eq ▸ hpair⟩
  · intro hshelf
    obtain ⟨hf, hpair⟩ := hshelf
    rcases hf with hf | ⟨value, fold, hvalue, hfold, hf, rfl⟩
    · cases role with
      | dimension =>
        obtain ⟨hf, hfid, hne⟩ := (mem_filter_fid_ne_iff hpair).1 hf
        exact .value hf hfid hne
      | measure =>
        obtain ⟨hf, hfid, hne⟩ := (mem_filter_fid_ne_iff hpair.symm).1 hf
        exact .key hf hfid hne
    · exact .folded hvalue hfold (hf.fid_eq ▸ hpair) hf

/-- In a query of rows each measure is asked for, in an aggregate one the first with its column. -/
theorem mem_queried_iff {aggregated : Bool} {measures : List Field} {f : Field}
    (hf : f ∈ measures) : f ∈ queried s aggregated measures ↔
      (aggregated = true → IsFirst (fun g => (measureOf s g).output = (measureOf s f).output)
        measures f) := by
  cases aggregated with
  | false => simpa [queried] using hf
  | true =>
    have hfirst : measures.find? (fun g => (measureOf s g).output == (measureOf s f).output) =
        some f ↔ IsFirst (fun g => (measureOf s g).output = (measureOf s f).output) measures f :=
      find?_eq_some_iff_isFirst fun g => beq_iff_eq
    rw [queried, if_pos rfl, mem_distinctBy_iff]
    exact hfirst.trans ⟨fun h _ => h, fun h => h rfl⟩

theorem mem_of_mem_queried {aggregated : Bool} {measures : List Field} {f : Field}
    (hf : f ∈ queried s aggregated measures) : f ∈ measures := by
  cases aggregated with
  | false => exact hf
  | true => exact mem_of_mem_distinctBy hf

/-- The query asks for no measure of the pair just if it aggregates and other measures that come
first have the columns of those of the pair. -/
theorem forall_mem_queried_iff {aggregated : Bool} {measures : List Field} :
    (∀ f ∈ queried s aggregated measures, ¬ s.IsFoldFid f.fid) ↔
      ∀ f ∈ measures, s.IsFoldFid f.fid → aggregated = true ∧
        ∃ g, IsFirst (fun g => (measureOf s g).output = (measureOf s f).output) measures g ∧
          ¬ s.IsFoldFid g.fid := by
  constructor
  · intro hall f hf hpair
    have hagg : aggregated = true := by
      by_contra hraw
      exact hall f ((mem_queried_iff hf).2 fun hagg => absurd hagg hraw) hpair
    obtain ⟨g, hg⟩ := exists_isFirst (P := fun g => (measureOf s g).output = (measureOf s f).output)
      hf rfl
    have hown : IsFirst (fun x => (measureOf s x).output = (measureOf s g).output) measures g := by
      rw [hg.prop]
      exact hg
    exact ⟨hagg, g, hg, hall g ((mem_queried_iff hg.mem).2 fun _ => hown)⟩
  · intro hall f hf hpair
    have hmem : f ∈ measures := mem_of_mem_queried hf
    obtain ⟨hagg, g, hg, hother⟩ := hall f hmem hpair
    have hown := (mem_queried_iff hmem).1 hf hagg
    exact hother (hg.unique hown ▸ hpair)

theorem Stages.hides_plan_iff (g : Stages) {fid : String} :
    (g.plan v s).Hides fid ↔ ¬ (g.viewQuery v s).Names fid := by
  constructor
  · intro h
    obtain ⟨q, hq, hnames, -⟩ := h
    rw [g.queries?_plan] at hq
    cases hq
    exact hnames
  · intro hnames
    refine ⟨_, g.queries?_plan, hnames, ?_⟩
    intro hraw keys direction hmem hkey
    cases hq : g.viewQuery v s with
    | aggregate groupBy measures =>
      rw [hq] at hraw
      cases hraw
    | raw fields =>
      have hfields : keys ⊆ fields := ((Stages.isSortedBy_of_mem_plan hmem).raw fields hq).2
      rw [hq] at hnames
      exact hnames (hfields hkey)

theorem not_names_foldPair_iff {aggregated : Bool} :
    ¬ (query s shelves aggregated).Names s.foldKey ∧
        ¬ (query s shelves aggregated).Names s.foldValue ↔
      (∀ f ∈ shelves.dimensions, ¬ s.IsFoldFid f.fid) ∧
        ∀ f ∈ queried s aggregated shelves.measures, ¬ s.IsFoldFid f.fid := by
  simp only [names_query_iff, Settings.IsFoldFid, not_or, not_exists, not_and, imp_and, forall_and]
  exact and_and_and_comm

/-- A compiled plan hides the fold pair just if no field of it is left over for the dimensions, and
those that are left over for the measures lose their columns to others. -/
theorem hides_iff_of_compile (h : v.compile s = .ok p) : ∃ shelves q, v.Unfolds s shelves ∧
    p.queries? = some [q] ∧
    (p.Hides s.foldKey ∧ p.Hides s.foldValue ↔
      (∀ f, ¬ v.Strays s .dimension f) ∧
        ∀ f, v.Strays s .measure f → q.isAggregate = true ∧
          ∃ g, IsFirst (fun g => (measureOf s g).output = (measureOf s f).output)
              shelves.measures g ∧
            ¬ s.IsFoldFid g.fid) := by
  obtain ⟨g, rfl, hunfolds, hq⟩ := exists_stages_of_compile h
  refine ⟨g.shelves, g.viewQuery v s, hunfolds, hq, ?_⟩
  have hdimensions : (∀ f, ¬ v.Strays s .dimension f) ↔
      ∀ f ∈ g.shelves.dimensions, ¬ s.IsFoldFid f.fid := by
    simp only [hunfolds.strays_iff, Shelves.shelf, not_and]
  have hmeasures : (∀ f, v.Strays s .measure f → (v.isAggregated g.shelves = true ∧
      ∃ g', IsFirst (fun g' => (measureOf s g').output = (measureOf s f).output)
        g.shelves.measures g' ∧ ¬ s.IsFoldFid g'.fid)) ↔
      ∀ f ∈ queried s (v.isAggregated g.shelves) g.shelves.measures, ¬ s.IsFoldFid f.fid := by
    simp only [hunfolds.strays_iff, Shelves.shelf, forall_mem_queried_iff, and_imp]
  rw [hdimensions, Stages.viewQuery, isAggregate_query, hmeasures, g.hides_plan_iff,
    g.hides_plan_iff, Stages.viewQuery, not_names_foldPair_iff]

theorem hides_of_foldedView : foldedView.compile .default = .ok foldedPlan ∧
    foldedPlan.Hides Settings.default.foldKey ∧ foldedPlan.Hides Settings.default.foldValue := by
  obtain ⟨shelves, q, -, -, hiff⟩ := hides_iff_of_compile compile_foldedView
  have hnone : ∀ role f, ¬ foldedView.Strays .default role f := by
    intro role f hstray
    have hdimensions : ∀ f ∈ foldedView.dimensions, f.fid ≠ Settings.default.foldValue := by decide
    have hmeasures : ∀ f ∈ foldedView.measures, f.fid ≠ Settings.default.foldKey := by decide
    have hfolds : ∀ fold ∈ foldedView.folds,
        fold ≠ Settings.default.foldKey ∧ fold ≠ Settings.default.foldValue := by decide
    cases hstray with
    | value hf hfid => exact hdimensions f hf hfid
    | key hf hfid => exact hmeasures f hf hfid
    | folded _ hfold hpair =>
      obtain ⟨hkey, hvalue⟩ := hfolds _ hfold
      exact hpair.elim hkey hvalue
  exact ⟨compile_foldedView, hiff.2 ⟨hnone .dimension, fun f hf => absurd hf (hnone .measure f)⟩⟩

/-- The fold value stands among the dimensions, where only the fold key is taken off. -/
def misplacedView : View where
  filters := []
  allFields := [.dimension "region"]
  dimensions := [.dimension "region", .dimension "gw_mea_val_fid"]
  measures := []
  aggregates := false
  sort := .unsorted
  folds := []
  limit := none

def misplacedPlan : Plan := ⟨[.view [.raw ["region", "gw_mea_val_fid"]]], none⟩

theorem not_hides_misplaced : misplacedView.compile .default = .ok misplacedPlan ∧
    ¬ (misplacedPlan.Hides Settings.default.foldKey ∧
      misplacedPlan.Hides Settings.default.foldValue) := by
  have hc : misplacedView.compile .default = .ok misplacedPlan := by with_unfolding_all rfl
  refine ⟨hc, fun hboth => ?_⟩
  obtain ⟨q, hq, hnames, -⟩ := hboth.2
  obtain rfl : ViewQuery.raw ["region", "gw_mea_val_fid"] = q := by
    simpa [misplacedPlan, Plan.queries?] using hq
  exact hnames (List.mem_cons_of_mem _ (List.mem_singleton_self _))

end View

end ChartQuery
