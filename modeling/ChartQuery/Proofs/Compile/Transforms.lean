import ChartQuery.Proofs.Compile.Shape
import ChartQuery.Proofs.Transform.Placement
import ChartQuery.Proofs.Transform.Reach

namespace ChartQuery

/-- The expression that computes the field, if it is a computed one that has it. -/
def Field.formula? (f : Field) : Option Expression := if f.computed then f.expression else none

namespace View

/-- The dataset has a field with the key. -/
def IsKnown (v : View) (fid : String) : Prop := ∃ f ∈ v.allFields, f.fid = fid

/-- The field is computed, and it has one of the keys or a computed field in use reads it. -/
inductive Uses (v : View) (keys : List String) : Field → Prop where
  | shown {f : Field} {e : Expression} (hf : f ∈ v.allFields) (he : f.formula? = some e)
      (hk : f.fid ∈ keys) : Uses v keys f
  | read {f g : Field} {e d : Expression} (hf : Uses v keys f) (he : f.formula? = some e)
      (hg : g ∈ v.allFields) (hd : g.formula? = some d) (hr : g.fid ∈ e.references) : Uses v keys g

theorem Uses.mem_allFields {v : View} {keys : List String} {f : Field} (h : v.Uses keys f) :
    f ∈ v.allFields := by
  cases h with
  | shown hf => exact hf
  | read _ _ hg => exact hg

theorem Uses.exists_formula {v : View} {keys : List String} {f : Field} (h : v.Uses keys f) :
    ∃ e, f.formula? = some e := by
  cases h with
  | shown _ he => exact ⟨_, he⟩
  | read _ _ _ hd => exact ⟨_, hd⟩

/-- The step of a plan that computes the field from the expression. -/
def transformOf (f : Field) (e : Expression) : Transform := ⟨f.fid, e.normalize⟩

@[simp] theorem references_transformOf (f : Field) (e : Expression) :
    (transformOf f e).references = e.references :=
  e.references_normalize

theorem transform?_eq_some_iff {f : Field} {t : Transform} :
    transform? f = some t ↔ ∃ e, f.formula? = some e ∧ transformOf f e = t := by
  rw [transform?, Field.formula?]
  cases f.computed with
  | false => simp
  | true => simp [transformOf]

theorem mem_transforms_iff {v : View} {t : Transform} : t ∈ v.allFields.filterMap transform? ↔
    ∃ f ∈ v.allFields, ∃ e, f.formula? = some e ∧ transformOf f e = t := by
  simp only [List.mem_filterMap, transform?_eq_some_iff]

theorem keys_transforms_sublist (fields : List Field) :
    ((fields.filterMap transform?).map Transform.key).Sublist (fields.map Field.fid) := by
  induction fields with
  | nil => exact List.Sublist.slnil
  | cons f fields ih =>
    cases hf : transform? f with
    | none =>
      rw [List.filterMap_cons_none hf]
      exact ih.cons f.fid
    | some t =>
      obtain ⟨e, _, rfl⟩ := transform?_eq_some_iff.1 hf
      rw [List.filterMap_cons_some hf]
      exact ih.cons_cons f.fid

theorem reached_iff {v : View} {keys : List String} {t : Transform} :
    Transform.Reached keys (v.allFields.filterMap transform?) t ↔
      ∃ f e, v.Uses keys f ∧ f.formula? = some e ∧ transformOf f e = t := by
  constructor
  · intro h
    induction h with
    | named ht hk =>
      obtain ⟨f, hf, e, he, rfl⟩ := mem_transforms_iff.1 ht
      exact ⟨f, e, .shown hf he hk, he, rfl⟩
    | read _ hu hr ih =>
      obtain ⟨f, e, huse, he, rfl⟩ := ih
      obtain ⟨g, hg, d, hd, rfl⟩ := mem_transforms_iff.1 hu
      rw [references_transformOf] at hr
      exact ⟨g, d, .read huse he hg hd hr, hd, rfl⟩
  · rintro ⟨f, e, huse, he, rfl⟩
    induction huse generalizing e with
    | @shown f d hf hd hk =>
      exact .named (mem_transforms_iff.2 ⟨f, hf, e, he, rfl⟩) hk
    | @read f g d _ _ hd hg _ hr ih =>
      refine .read (ih d hd) (mem_transforms_iff.2 ⟨g, hg, e, he, rfl⟩) ?_
      rw [references_transformOf]
      exact hr

section Needed

variable {v : View} {shelves : Shelves}

theorem mem_neededTransforms_iff {t : Transform} : t ∈ v.neededTransforms shelves ↔
    ∃ f e, v.Uses (v.keys shelves) f ∧ f.formula? = some e ∧ transformOf f e = t := by
  rw [neededTransforms, Transform.mem_needed_iff, reached_iff]

/-- Where no two fields of the dataset have one key, no two transforms do. -/
theorem neededTransforms_keys_nodup (h : (v.allFields.map Field.fid).Nodup) :
    ((v.neededTransforms shelves).map Transform.key).Nodup := by
  obtain ⟨ts, hperm, hsub⟩ := Transform.needed_subperm (v.keys shelves)
    (v.allFields.filterMap transform?)
  have hts : (ts.map Transform.key).Nodup :=
    h.sublist ((hsub.map Transform.key).trans (keys_transforms_sublist v.allFields))
  exact (hperm.map Transform.key).nodup_iff.1 hts

end Needed

section Checked

variable {v : View} {s : Settings} {shelves : Shelves} {ts out : List Transform}

theorem field?_isSome_iff {fid : String} : (v.field? fid).isSome = true ↔ v.IsKnown fid := by
  simp [field?, IsKnown]

theorem missing?_eq_none_iff {t : Transform} :
    v.missing? t = none ↔ ∀ fid ∈ t.references, v.IsKnown fid := by
  simp only [missing?, List.find?_eq_none, ← field?_isSome_iff, Option.isNone_iff_eq_none,
    Option.isSome_iff_ne_none, ne_eq]

theorem checkReferences_eq_ok_iff {t : Transform} :
    v.checkReferences t = .ok () ↔ v.missing? t = none := by
  rw [checkReferences]
  cases v.missing? t with
  | none => simp
  | some fid => simp

theorem checkedTransforms_eq_ok_iff : v.checkedTransforms shelves = .ok ts ↔
    ts = v.neededTransforms shelves ∧ ∀ t ∈ ts, v.missing? t = none := by
  simp only [checkedTransforms, except_bind_eq_ok]
  constructor
  · rintro ⟨_, hall, ⟨⟩⟩
    exact ⟨rfl, fun t ht => checkReferences_eq_ok_iff.1 (forM_eq_ok_iff.1 hall t ht)⟩
  · rintro ⟨rfl, hall⟩
    exact ⟨(), forM_eq_ok_iff.2 fun t ht => checkReferences_eq_ok_iff.2 (hall t ht), rfl⟩

theorem orderedTransforms_eq_ok_iff :
    orderedTransforms s ts = .ok out ↔ Transform.order s.cyclePolicy ts = .ok out := by
  rw [orderedTransforms]
  cases Transform.order s.cyclePolicy ts with
  | ok ts => simp
  | error keys => simp

end Checked

section Stages

variable {v : View} {s : Settings} {g : Stages}

theorem Stages.AreOf.transforms_perm (hg : g.AreOf v s) : g.transforms.Perm g.found :=
  Transform.order_perm (orderedTransforms_eq_ok_iff.1 hg.transforms)

theorem Stages.AreOf.mem_transforms_iff (hg : g.AreOf v s) {t : Transform} : t ∈ g.transforms ↔
    ∃ f e, v.Uses (v.keys g.shelves) f ∧ f.formula? = some e ∧ transformOf f e = t := by
  rw [hg.transforms_perm.mem_iff, (checkedTransforms_eq_ok_iff.1 hg.found).1,
    mem_neededTransforms_iff]

end Stages

/-- The transforms compute the fields in use and no others, each once, from known fields alone
and after all computed fields that they read. -/
structure Computes (v : View) (keys : List String) (ts : List Transform) : Prop where
  nodup : (ts.map Transform.key).Nodup
  mem_iff : ∀ t, t ∈ ts ↔ ∃ f e, v.Uses keys f ∧ f.formula? = some e ∧ transformOf f e = t
  known : ∀ t ∈ ts, ∀ fid ∈ t.references, v.IsKnown fid
  ordered : ∀ before t after, ts = before ++ t :: after →
    ∀ f ∈ v.allFields, f.formula?.isSome → f.fid ∈ t.references →
      f.fid ∈ before.map Transform.key

/-- A compiled plan computes the fields that its view uses. -/
theorem computes_of_compile {v : View} {s : Settings} {p : Plan}
    (hfids : (v.allFields.map Field.fid).Nodup) (hpolicy : s.cyclePolicy = .reject)
    (h : v.compile s = .ok p) :
    ∃ shelves, v.shelves s = .ok shelves ∧ v.Computes (v.keys shelves) p.transforms := by
  obtain ⟨g, hg, rfl⟩ := compile_eq_ok.1 h
  obtain ⟨hfound, hknown⟩ := checkedTransforms_eq_ok_iff.1 hg.found
  have horder : Transform.order .reject g.found = .ok g.transforms := by
    rw [← hpolicy]
    exact orderedTransforms_eq_ok_iff.1 hg.transforms
  have hkeys : (g.found.map Transform.key).Nodup := by
    rw [hfound]
    exact neededTransforms_keys_nodup hfids
  have hplan : (g.plan v s).transforms = g.transforms := g.isLaidOut_plan.transforms_eq
  refine ⟨g.shelves, hg.shelves, ?_⟩
  rw [hplan]
  constructor
  case nodup => exact (hg.transforms_perm.map Transform.key).nodup_iff.2 hkeys
  case mem_iff => exact fun t => hg.mem_transforms_iff
  case known =>
    intro t ht
    exact missing?_eq_none_iff.1 (hknown t (hg.transforms_perm.mem_iff.1 ht))
  case ordered =>
    intro before t after hsplit f hf hcomputed hr
    obtain ⟨d, hd⟩ := Option.isSome_iff_exists.1 hcomputed
    have ht : t ∈ g.transforms := by
      rw [hsplit]
      simp
    obtain ⟨f', e, huse, he, rfl⟩ := hg.mem_transforms_iff.1 ht
    rw [references_transformOf] at hr
    have hread : transformOf f d ∈ g.transforms :=
      hg.mem_transforms_iff.2 ⟨f, d, .read huse he hf hd hr, hd, rfl⟩
    have hbefore : transformOf f d ∈ before := by
      apply Transform.mem_before_of_order horder hkeys hsplit (hg.transforms_perm.mem_iff.1 hread)
      rw [references_transformOf]
      exact hr
    exact List.mem_map_of_mem hbefore

section Margin

def profitOf : Expression := ⟨"-", [.field "sales", .field "cost"], "profit"⟩

def marginOf : Expression :=
  ⟨"/", [.expression ⟨"abs", [.field "profit"], "size"⟩, .field "sales"], "margin"⟩

/-- The margin stands on a shelf by way of the fold pair, and reads the profit. -/
def marginView : View where
  filters := []
  allFields := [.ofExpression "margin" .measure marginOf, .ofExpression "profit" .measure profitOf,
    .ofExpression "spread" .measure profitOf, .new "sales" .measure, .new "cost" .measure]
  dimensions := [.dimension "gw_mea_key_fid"]
  measures := [.measure "gw_mea_val_fid" "mean"]
  aggregates := true
  sort := .unsorted
  folds := ["margin"]
  limit := none

def marginPlan : Plan :=
  ⟨[.transform [⟨"profit", profitOf⟩, ⟨"margin", marginOf⟩],
    .view [.aggregate [] [⟨"margin", "mean", "margin_mean"⟩]]], none⟩

theorem computes_margin :
    (marginView.allFields.map Field.fid).Nodup ∧ marginView.compile .default = .ok marginPlan ∧
      ∃ shelves, marginView.shelves .default = .ok shelves ∧
        marginView.Computes (marginView.keys shelves)
          [⟨"profit", profitOf⟩, ⟨"margin", marginOf⟩] := by
  have hfids : (marginView.allFields.map Field.fid).Nodup := by decide
  have hc : marginView.compile .default = .ok marginPlan := by with_unfolding_all rfl
  exact ⟨hfids, hc, computes_of_compile hfids rfl hc⟩

end Margin

end View

end ChartQuery
