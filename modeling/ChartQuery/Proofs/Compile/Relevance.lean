import ChartQuery.Proofs.Compile.KnownFields
import Mathlib.Data.List.Find

namespace ChartQuery.View

/-- The key is on a shelf or in a fold, or a computed field with an involved key reads it. -/
inductive Involves (v : View) : String → Prop where
  | dimension {f : Field} (hf : f ∈ v.dimensions) : Involves v f.fid
  | measure {f : Field} (hf : f ∈ v.measures) : Involves v f.fid
  | filter {f : ShelfFilter} (hf : f ∈ v.filters) : Involves v f.fid
  | fold {fid : String} (hfid : fid ∈ v.folds) : Involves v fid
  | read {f : Field} {e : Expression} {fid : String} (hi : Involves v f.fid)
      (hf : f ∈ v.allFields) (he : f.formula? = some e) (hr : fid ∈ e.references) : Involves v fid

/-- The set holds the keys on the shelves and in the folds, and what a computed field reads if it
holds the key of the field. -/
structure IsClosed (v : View) (K : String → Bool) : Prop where
  dimensions : ∀ f ∈ v.dimensions, K f.fid = true
  measures : ∀ f ∈ v.measures, K f.fid = true
  filters : ∀ f ∈ v.filters, K f.fid = true
  folds : ∀ fid ∈ v.folds, K fid = true
  reads : ∀ f ∈ v.allFields, K f.fid = true → ∀ e, f.formula? = some e →
    ∀ fid ∈ e.references, K fid = true

/-- The view on the part of the dataset that has its keys in the set. -/
def restrict (v : View) (K : String → Bool) : View :=
  { v with allFields := v.allFields.filter (K ·.fid) }

variable {v w : View} {K : String → Bool} {s : Settings} {shelves : Shelves}

theorem isClosed_involves [DecidablePred v.Involves] : v.IsClosed fun fid => v.Involves fid where
  dimensions := fun _ hf => decide_eq_true (.dimension hf)
  measures := fun _ hf => decide_eq_true (.measure hf)
  filters := fun _ hf => decide_eq_true (.filter hf)
  folds := fun _ hfid => decide_eq_true (.fold hfid)
  reads := fun _ hf hi _ he _ hr => decide_eq_true (.read (of_decide_eq_true hi) hf he hr)

theorem field?_restrict {fid : String} (h : K fid = true) :
    (v.restrict K).field? fid = v.field? fid := by
  rw [field?, field?, restrict, List.find?_filter]
  apply List.find?_congr
  intro f _
  by_cases hf : f.fid = fid
  · simp [hf, h]
  · simp [hf]

theorem filterMap_transform?_restrict : (v.restrict K).allFields.filterMap transform? =
    (v.allFields.filterMap transform?).filter (K ·.key) := by
  rw [restrict, List.filterMap_filter, List.filter_filterMap]
  apply List.filterMap_congr
  intro f _
  cases ht : transform? f with
  | none => simp
  | some t =>
    obtain ⟨e, _, rfl⟩ := transform?_eq_some_iff.1 ht
    rfl

theorem fid_mem_folds {folded : List Field} (h : v.foldedFields s = .ok folded) :
    ∀ f ∈ folded, f.fid ∈ v.folds := by
  intro f hf
  obtain ⟨fold, hmem, agg, hfold⟩ := exists_fold_of_mem_foldedFields h hf
  obtain ⟨g, hg, rfl⟩ := foldedField_eq_ok hfold
  have hfid : g.fid = fold := by simpa using List.find?_some hg
  rwa [← hfid] at hmem

namespace IsClosed

theorem shelves_restrict (hK : v.IsClosed K) : (v.restrict K).shelves s = v.shelves s := by
  have hfolds : ∀ agg, v.folds.mapM ((v.restrict K).foldedField s agg) =
      v.folds.mapM (v.foldedField s agg) := by
    intro agg
    apply mapM_congr_of_mem
    intro fid hfid
    rw [foldedField, foldedField, field?_restrict (hK.folds fid hfid)]
  have hfolded : (v.restrict K).foldedFields s = v.foldedFields s := by
    simp only [foldedFields, restrict] at hfolds ⊢
    simp only [hfolds]
  rw [View.shelves, View.shelves, hfolded]
  rfl

theorem of_mem_keys (hK : v.IsClosed K) (h : v.shelves s = .ok shelves) :
    ∀ fid ∈ v.keys shelves, K fid = true := by
  obtain ⟨folded, hfolded, hdimensions, hmeasures⟩ := shelves_eq_ok h
  have hfold : ∀ f ∈ folded, K f.fid = true := fun f hf =>
    hK.folds f.fid (fid_mem_folds hfolded f hf)
  simp only [View.keys, hdimensions, hmeasures, List.forall_mem_append, List.forall_mem_map,
    List.mem_filter]
  refine ⟨⟨⟨?_, ?_⟩, ?_, ?_⟩, hK.filters⟩
  · intro f hf
    exact hK.dimensions f hf.1
  · intro f hf
    exact hfold f hf.1
  · intro f hf
    exact hK.measures f hf.1
  · intro f hf
    exact hfold f hf.1

theorem isClosed_transforms (hK : v.IsClosed K) :
    Transform.IsClosed K (v.allFields.filterMap transform?) := by
  intro t ht hkey fid hr
  obtain ⟨f, hf, e, he, rfl⟩ := mem_transforms_iff.1 ht
  rw [references_transformOf] at hr
  exact hK.reads f hf hkey e he fid hr

theorem neededTransforms_restrict (hK : v.IsClosed K) (h : v.shelves s = .ok shelves) :
    (v.restrict K).neededTransforms shelves = v.neededTransforms shelves := by
  rw [neededTransforms, filterMap_transform?_restrict]
  exact Transform.needed_filter hK.isClosed_transforms (hK.of_mem_keys h)

theorem references_of_mem_neededTransforms (hK : v.IsClosed K) (h : v.shelves s = .ok shelves)
    {t : Transform} (ht : t ∈ v.neededTransforms shelves) :
    ∀ fid ∈ t.references, K fid = true := by
  have hreached := Transform.mem_needed_iff.1 ht
  have hkey : K t.key = true :=
    hreached.key_of_isClosed hK.isClosed_transforms (hK.of_mem_keys h)
  exact hK.isClosed_transforms t hreached.mem hkey

theorem checkReferences_restrict (hK : v.IsClosed K) (h : v.shelves s = .ok shelves)
    {t : Transform} (ht : t ∈ v.neededTransforms shelves) :
    (v.restrict K).checkReferences t = v.checkReferences t := by
  have hmissing : (v.restrict K).missing? t = v.missing? t := by
    apply List.find?_congr
    intro fid hfid
    rw [field?_restrict (hK.references_of_mem_neededTransforms h ht fid hfid)]
  rw [checkReferences, checkReferences, hmissing]

theorem checkedTransforms_restrict (hK : v.IsClosed K) (h : v.shelves s = .ok shelves) :
    (v.restrict K).checkedTransforms shelves = v.checkedTransforms shelves := by
  have hcheck := fun t => hK.checkReferences_restrict h (t := t)
  rw [checkedTransforms, checkedTransforms, hK.neededTransforms_restrict h,
    forM_congr_of_mem hcheck]

/-- The part of the dataset outside of a closed set makes no difference. -/
theorem compile_restrict (hK : v.IsClosed K) : (v.restrict K).compile s = v.compile s := by
  rw [compile, compile, hK.shelves_restrict]
  cases h : v.shelves s with
  | error e => rfl
  | ok shelves =>
    have htransforms := hK.checkedTransforms_restrict h
    simp only [bind, Except.bind, htransforms]
    rfl

/-- The set is closed for each view that has the same part of its dataset in it. -/
theorem of_filter_eq (hK : v.IsClosed K) {fields : List Field}
    (h : fields.filter (K ·.fid) = v.allFields.filter (K ·.fid)) :
    IsClosed { v with allFields := fields } K where
  dimensions := hK.dimensions
  measures := hK.measures
  filters := hK.filters
  folds := hK.folds
  reads := by
    intro f hf hkey
    have hmem : f ∈ v.allFields.filter (K ·.fid) := by
      rw [← h]
      exact List.mem_filter.2 ⟨hf, hkey⟩
    exact hK.reads f (List.mem_filter.1 hmem).1 hkey

end IsClosed

/-- Fields of the dataset that a view does not involve have no influence on what it compiles to. -/
theorem compile_eq_of_filter_involves_eq [DecidablePred v.Involves] {fields : List Field}
    (h : fields.filter (v.Involves ·.fid) = v.allFields.filter (v.Involves ·.fid))
    (s : Settings) : { v with allFields := fields }.compile s = v.compile s := by
  have hv : v.IsClosed fun fid => v.Involves fid := isClosed_involves
  have hw := hv.of_filter_eq h
  have hsame : { v with allFields := fields }.restrict (v.Involves ·) =
      v.restrict (v.Involves ·) := by
    rw [restrict, restrict, h]
  calc
    _ = ({ v with allFields := fields }.restrict (v.Involves ·)).compile s :=
      hw.compile_restrict.symm
    _ = (v.restrict (v.Involves ·)).compile s := by rw [hsame]
    _ = v.compile s := hv.compile_restrict

section Waste

/-- The dataset of the margin without the spread, but with a field that reads itself and a field
that is not there. -/
def wastedFields : List Field :=
  [.ofExpression "waste" .measure ⟨"+", [.field "waste", .field "nowhere"], "waste"⟩,
    .ofExpression "margin" .measure marginOf, .ofExpression "profit" .measure profitOf,
    .new "sales" .measure, .new "cost" .measure]

def marginKeys : List String :=
  ["gw_mea_key_fid", "gw_mea_val_fid", "margin", "profit", "sales", "cost"]

theorem involves_marginView_iff {fid : String} :
    marginView.Involves fid ↔ fid ∈ marginKeys := by
  constructor
  · intro h
    have hreads : ∀ f ∈ marginView.allFields, ∀ e ∈ f.formula?, ∀ fid ∈ e.references,
        fid ∈ marginKeys := by decide
    induction h with
    | dimension hf =>
      have hall : ∀ f ∈ marginView.dimensions, f.fid ∈ marginKeys := by decide
      exact hall _ hf
    | measure hf =>
      have hall : ∀ f ∈ marginView.measures, f.fid ∈ marginKeys := by decide
      exact hall _ hf
    | filter hf => cases hf
    | fold hfid =>
      have hall : ∀ fid ∈ marginView.folds, fid ∈ marginKeys := by decide
      exact hall _ hfid
    | read _ hf he hr _ => exact hreads _ hf _ he _ hr
  · have hmargin : marginView.Involves "margin" := .fold List.mem_cons_self
    have hreads : ∀ fid ∈ marginOf.references, marginView.Involves fid := fun _ hr =>
      .read hmargin List.mem_cons_self rfl hr
    have hprofit : marginView.Involves "profit" := hreads "profit" (by decide)
    have hcost : marginView.Involves "cost" :=
      .read hprofit (List.mem_cons_of_mem _ List.mem_cons_self) rfl (by decide)
    intro h
    simp only [marginKeys, List.mem_cons, List.not_mem_nil, or_false] at h
    rcases h with rfl | rfl | rfl | rfl | rfl | rfl
    · exact .dimension (f := .dimension "gw_mea_key_fid") List.mem_cons_self
    · exact .measure (f := .measure "gw_mea_val_fid" "mean") List.mem_cons_self
    · exact hmargin
    · exact hprofit
    · exact hreads "sales" (by decide)
    · exact hcost

instance : DecidablePred marginView.Involves := fun _ =>
  decidable_of_iff _ involves_marginView_iff.symm

theorem compile_wasted : wastedFields.filter (marginView.Involves ·.fid) =
      marginView.allFields.filter (marginView.Involves ·.fid) ∧
    { marginView with allFields := wastedFields }.compile .default =
      marginView.compile .default := by
  have h : wastedFields.filter (marginView.Involves ·.fid) =
      marginView.allFields.filter (marginView.Involves ·.fid) := rfl
  exact ⟨h, compile_eq_of_filter_involves_eq h .default⟩

end Waste

end ChartQuery.View
