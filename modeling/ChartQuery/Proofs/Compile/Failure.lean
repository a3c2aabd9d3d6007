import ChartQuery.Proofs.Compile.Report
import ChartQuery.Proofs.Compile.Transforms

namespace ChartQuery

/-- What can be wrong with a rule: an end point that cannot be converted, the lower one first. -/
def ShelfRule.faults : ShelfRule → List (FilterFault → Prop)
  | oneOf _ => []
  | range lo hi => [lo, hi].map fun l e => l.toNumber? = none ∧ e = .notANumber l
  | temporalRange lo hi => [lo, hi].map fun l e => l.toMillis? = none ∧ e = .notADate l

/-- A filter has no rule, or a rule with a fault. -/
def ShelfFilter.HasFault (f : ShelfFilter) (e : FilterFault) : Prop :=
  match f.rule with
  | none => e = .noRule
  | some rule => FirstOf rule.faults e

namespace View

variable (v : View) (s : Settings)

/-- Both halves of the fold pair are on their shelves. -/
def FoldIsActive : Prop :=
  (∃ f ∈ v.dimensions, f.fid = s.foldKey) ∧ ∃ f ∈ v.measures, f.fid = s.foldValue

/-- A fold that is in effect names an unknown field. -/
def FoldFault (e : CompileError) : Prop :=
  v.FoldIsActive s ∧
    FirstOf (v.folds.map fun fid e => ¬ v.IsKnown fid ∧ e = .unknownField fid s.foldValue) e

/-- A filter on a raw field, or one on a computed field, has a fault. -/
def ShelfFault (computed : Bool) (e : CompileError) : Prop :=
  FirstOf (v.filters.map fun f e => f.isComputed = computed ∧
    ∃ fault, f.HasFault fault ∧ e = .badFilter f.fid fault) e

/-- A computed field reads an unknown field. -/
def UnknownReference (t : Transform) (e : CompileError) : Prop :=
  FirstOf (t.references.map fun fid e => ¬ v.IsKnown fid ∧ e = .unknownField fid t.key) e

/-- A computed field that is needed reads an unknown field. -/
def ReferenceFault (e : CompileError) : Prop :=
  ∃ shelves, v.shelves s = .ok shelves ∧
    FirstOf ((v.neededTransforms shelves).map v.UnknownReference) e

/-- Computed fields that are needed read each other in a circle, and that is not allowed. -/
def CircleFault (e : CompileError) : Prop :=
  s.cyclePolicy = .reject ∧ ∃ shelves keys, v.shelves s = .ok shelves ∧
    Transform.IsCircular (v.neededTransforms shelves) ∧ e = .circle keys

/-- All that can be wrong with a view, in the order in which it is looked for. -/
def faults : List (CompileError → Prop) :=
  [v.FoldFault s, v.ShelfFault false, v.ReferenceFault s, v.CircleFault s, v.ShelfFault true]

end View

section Filters

/-- A fault with a number is one with a temporal end point that is not finite. -/
theorem ShelfRule.isFinite_eq_false_of_fault {rule : ShelfRule} {x : Binary64}
    (h : ∃ P ∈ rule.faults, P (.notANumber (.number x)) ∨ P (.notADate (.number x))) :
    x.isFinite = false := by
  obtain ⟨P, hP, hfault⟩ := h
  cases rule with
  | oneOf values => cases hP
  | range lo hi =>
    obtain ⟨l, -, rfl⟩ := List.mem_map.1 hP
    rcases hfault with ⟨hl, heq⟩ | ⟨-, heq⟩
    · cases heq
      cases hl
    · cases heq
  | temporalRange lo hi =>
    obtain ⟨l, -, rfl⟩ := List.mem_map.1 hP
    rcases hfault with ⟨-, heq⟩ | ⟨hl, heq⟩
    · cases heq
    · cases heq
      simpa [Literal.toMillis?] using hl

/-- Messages describe no finite number. -/
theorem ShelfFilter.isFinite_eq_false_of_hasFault {f : ShelfFilter} {x : Binary64}
    (h : f.HasFault (.notANumber (.number x)) ∨ f.HasFault (.notADate (.number x))) :
    x.isFinite = false := by
  rw [HasFault, HasFault] at h
  cases hrule : f.rule with
  | none =>
    rw [hrule] at h
    rcases h with h | h
    · cases h
    · cases h
  | some rule =>
    rw [hrule] at h
    rcases h with h | h
    · obtain ⟨P, hP, hfault⟩ := exists_of_firstOf h
      exact ShelfRule.isFinite_eq_false_of_fault ⟨P, hP, .inl hfault⟩
    · obtain ⟨P, hP, hfault⟩ := exists_of_firstOf h
      exact ShelfRule.isFinite_eq_false_of_fault ⟨P, hP, .inr hfault⟩

theorem ShelfRule.numberAt_reports (l : Literal) :
    Reports [fun e => l.toNumber? = none ∧ e = .notANumber l] (numberAt l) := by
  rw [numberAt]
  cases h : l.toNumber? with
  | some x => simp [Reports]
  | none => simp [Reports, firstOf_cons]

theorem ShelfRule.millisAt_reports (l : Literal) :
    Reports [fun e => l.toMillis? = none ∧ e = .notADate l] (millisAt l) := by
  rw [millisAt]
  cases h : l.toMillis? with
  | some n => simp [Reports]
  | none => simp [Reports, firstOf_cons]

theorem ShelfRule.compile_reports (rule : ShelfRule) : Reports rule.faults rule.compile := by
  cases rule with
  | oneOf values => exact .ok _
  | range lo hi =>
    exact (numberAt_reports lo).bind fun x _ => (numberAt_reports hi).map (Condition.range x)
  | temporalRange lo hi =>
    exact (millisAt_reports lo).bind fun m _ =>
      (millisAt_reports hi).map (Condition.temporalRange m)

theorem ShelfFilter.condition_reports (f : ShelfFilter) :
    Reports [f.HasFault] f.condition := by
  rw [condition]
  cases h : f.rule with
  | none => simp [Reports, firstOf_cons, HasFault, h]
  | some rule =>
    refine Reports.congr (fun e => ?_) rule.compile_reports.join
    rw [HasFault, h]

theorem ShelfFilter.compile_reports (f : ShelfFilter) :
    Reports [fun e => ∃ fault, f.HasFault fault ∧ e = .badFilter f.fid fault] f.compile := by
  have hc := f.condition_reports
  rw [compile]
  cases h : f.condition with
  | ok c =>
    have hnone : ∀ fault, ¬ f.HasFault fault := by simpa [h, Reports] using hc
    simp [Reports, hnone]
  | error fault =>
    have hfault : f.HasFault fault := by simpa [h, Reports, firstOf_cons] using hc
    simpa [Reports, firstOf_cons] using hfault

end Filters

namespace View

variable (v : View) (s : Settings)

theorem rowFilters_reports (computed : Bool) :
    Reports [v.ShelfFault computed] (v.rowFilters computed) := by
  refine Reports.congr (fun e => ?_) (Reports.mapM ShelfFilter.compile_reports _).join
  rw [firstOf_map_filter, ShelfFault]
  simp only [beq_iff_eq]

theorem field?_eq_none_iff (fid : String) : v.field? fid = none ↔ ¬ v.IsKnown fid := by
  rw [← field?_isSome_iff, Option.not_isSome_iff_eq_none]

theorem foldedField_reports (agg : Option String) (fid : String) :
    Reports [fun e => ¬ v.IsKnown fid ∧ e = .unknownField fid s.foldValue]
      (v.foldedField s agg fid) := by
  simp only [foldedField, ← field?_eq_none_iff]
  cases v.field? fid with
  | some f => simp [Reports]
  | none => simp [Reports, firstOf_cons]

theorem foldedFields_reports : Reports [v.FoldFault s] (v.foldedFields s) := by
  have hkey : v.dimensions.any (·.fid == s.foldKey) = true ↔
      ∃ f ∈ v.dimensions, f.fid = s.foldKey := by
    simp
  rw [foldedFields]
  cases hvalue : v.measures.find? (·.fid == s.foldValue) with
  | none =>
    have hinactive : ¬ v.FoldIsActive s := by
      rintro ⟨_, f, hf, he⟩
      simpa [he] using List.find?_eq_none.1 hvalue f hf
    simp [Reports, FoldFault, hinactive]
  | some value =>
    have hmeasure : ∃ f ∈ v.measures, f.fid = s.foldValue :=
      ⟨value, List.mem_of_find?_eq_some hvalue, by simpa using List.find?_some hvalue⟩
    cases hany : v.dimensions.any (·.fid == s.foldKey) with
    | false =>
      have hinactive : ¬ v.FoldIsActive s := by
        rintro ⟨hdimension, _⟩
        rw [← hkey, hany] at hdimension
        cases hdimension
      simp [Reports, FoldFault, hinactive]
    | true =>
      have hactive : v.FoldIsActive s := ⟨hkey.1 hany, hmeasure⟩
      refine Reports.congr (fun e => ?_)
        (Reports.mapM (v.foldedField_reports s value.agg) v.folds).join
      rw [FoldFault, and_iff_right hactive]

theorem shelves_reports : Reports [v.FoldFault s] (v.shelves s) :=
  (v.foldedFields_reports s).map _

theorem unknownReference_iff (t : Transform) (e : CompileError) :
    v.UnknownReference t e ↔ ∃ fid, v.missing? t = some fid ∧ e = .unknownField fid t.key := by
  rw [missing?, ← firstOf_map_iff_find?, UnknownReference]
  simp only [Option.isNone_iff_eq_none, field?_eq_none_iff]

/-- There is such a fault just where a computed field in use reads an unknown field. -/
theorem exists_referenceFault_iff : (∃ e, v.ReferenceFault s e) ↔
    ∃ shelves f x fid, v.shelves s = .ok shelves ∧ v.Uses (v.keys shelves) f ∧
      f.formula? = some x ∧ fid ∈ x.references ∧ ¬ v.IsKnown fid := by
  constructor
  · rintro ⟨e, shelves, hshelves, hfirst⟩
    obtain ⟨P, hP, hfault⟩ := exists_of_firstOf hfirst
    obtain ⟨t, ht, rfl⟩ := List.mem_map.1 hP
    obtain ⟨f, x, huse, hx, rfl⟩ := mem_neededTransforms_iff.1 ht
    obtain ⟨Q, hQ, hQe⟩ := exists_of_firstOf hfault
    obtain ⟨fid, hfid, rfl⟩ := List.mem_map.1 hQ
    rw [references_transformOf] at hfid
    exact ⟨shelves, f, x, fid, hshelves, huse, hx, hfid, hQe.1⟩
  · rintro ⟨shelves, f, x, fid, hshelves, huse, hx, hfid, hunknown⟩
    by_contra hnone
    have hclean : ∀ e, ¬ FirstOf ((v.neededTransforms shelves).map v.UnknownReference) e := by
      intro e he
      exact hnone ⟨e, shelves, hshelves, he⟩
    have hneeded : transformOf f x ∈ v.neededTransforms shelves :=
      mem_neededTransforms_iff.2 ⟨f, x, huse, hx, rfl⟩
    have hread : ∀ e, ¬ v.UnknownReference (transformOf f x) e :=
      forall_not_firstOf_iff.1 hclean _ (List.mem_map_of_mem hneeded)
    rw [← references_transformOf f x] at hfid
    exact forall_not_firstOf_iff.1 hread _ (List.mem_map_of_mem hfid) _ ⟨hunknown, rfl⟩

/-- One computed field in use reads another one, or itself. -/
structure UsedReads (keys : List String) (f g : Field) : Prop where
  left : v.Uses keys f
  right : v.Uses keys g
  reads : ∃ x, f.formula? = some x ∧ g.fid ∈ x.references

/-- The field is computed at a position of the transforms that are needed. -/
def IsNeededAt (shelves : Shelves) (i : Nat) (f : Field) : Prop :=
  v.Uses (v.keys shelves) f ∧
    ∃ x, f.formula? = some x ∧ (v.neededTransforms shelves)[i]? = some (transformOf f x)

section Circles

variable {v} {shelves : Shelves} {i j : Nat} {f g : Field}

theorem exists_isNeededAt (hi : i < (v.neededTransforms shelves).length) :
    ∃ f, v.IsNeededAt shelves i f := by
  obtain ⟨f, x, huse, hx, heq⟩ := mem_neededTransforms_iff.1 (List.getElem_mem hi)
  refine ⟨f, huse, x, hx, ?_⟩
  rw [List.getElem?_eq_getElem hi, heq]

theorem Uses.exists_isNeededAt (h : v.Uses (v.keys shelves) f) :
    ∃ i, v.IsNeededAt shelves i f := by
  obtain ⟨x, hx⟩ := h.exists_formula
  have hneeded : transformOf f x ∈ v.neededTransforms shelves :=
    mem_neededTransforms_iff.2 ⟨f, x, h, hx, rfl⟩
  obtain ⟨i, hi⟩ := List.mem_iff_getElem?.1 hneeded
  exact ⟨i, h, x, hx, hi⟩

theorem UsedReads.of_reads (hi : v.IsNeededAt shelves i f) (hj : v.IsNeededAt shelves j g)
    (h : Transform.Reads (v.neededTransforms shelves) i j) : v.UsedReads (v.keys shelves) f g := by
  obtain ⟨hf, x, hx, hit⟩ := hi
  obtain ⟨hg, y, hy, hju⟩ := hj
  obtain ⟨t, u, ht, hu, hr, -⟩ := h
  cases hit.symm.trans ht
  cases hju.symm.trans hu
  rw [references_transformOf] at hr
  exact ⟨hf, hg, x, hx, hr⟩

theorem UsedReads.reads_of_nodup (h : v.UsedReads (v.keys shelves) f g)
    (hfids : (v.allFields.map Field.fid).Nodup) (hi : v.IsNeededAt shelves i f)
    (hj : v.IsNeededAt shelves j g) : Transform.Reads (v.neededTransforms shelves) i j := by
  obtain ⟨-, x, hx, hit⟩ := hi
  obtain ⟨-, y, hy, hju⟩ := hj
  obtain ⟨x', hx', hr⟩ := h.reads
  cases hx.symm.trans hx'
  apply Transform.reads_of_keys_nodup (neededTransforms_keys_nodup hfids) hit hju
  rw [references_transformOf]
  exact hr

theorem transGen_usedReads
    (h : Relation.TransGen (Transform.Reads (v.neededTransforms shelves)) i j)
    (hi : v.IsNeededAt shelves i f) (hj : v.IsNeededAt shelves j g) :
    Relation.TransGen (v.UsedReads (v.keys shelves)) f g := by
  induction h generalizing g with
  | single hr => exact .single (.of_reads hi hj hr)
  | tail _ hr ih =>
    obtain ⟨k, hk⟩ := exists_isNeededAt hr.lt_length.1
    exact (ih hk).tail (.of_reads hk hj hr)

theorem transGen_reads (hfids : (v.allFields.map Field.fid).Nodup)
    (h : Relation.TransGen (v.UsedReads (v.keys shelves)) f g)
    (hi : v.IsNeededAt shelves i f) (hj : v.IsNeededAt shelves j g) :
    Relation.TransGen (Transform.Reads (v.neededTransforms shelves)) i j := by
  induction h generalizing j with
  | single hr => exact .single (hr.reads_of_nodup hfids hi hj)
  | tail _ hr ih =>
    obtain ⟨k, hk⟩ := hr.left.exists_isNeededAt
    exact (ih hk).tail (hr.reads_of_nodup hfids hk hj)

end Circles

/-- Where no two fields of the dataset have one key, there is such a fault just where a computed
field in use reads itself, directly or through others. -/
theorem exists_circleFault_iff (hfids : (v.allFields.map Field.fid).Nodup) :
    (∃ e, v.CircleFault s e) ↔ s.cyclePolicy = .reject ∧ ∃ shelves f, v.shelves s = .ok shelves ∧
      Relation.TransGen (v.UsedReads (v.keys shelves)) f f := by
  constructor
  · rintro ⟨e, hpolicy, shelves, keys, hshelves, ⟨i, hi⟩, rfl⟩
    obtain ⟨k, hr, -⟩ := Relation.TransGen.head'_iff.1 hi
    obtain ⟨f, hf⟩ := exists_isNeededAt hr.lt_length.1
    exact ⟨hpolicy, shelves, f, hshelves, transGen_usedReads hi hf hf⟩
  · rintro ⟨hpolicy, shelves, f, hshelves, hf⟩
    obtain ⟨g, hr, -⟩ := Relation.TransGen.head'_iff.1 hf
    obtain ⟨i, hi⟩ := hr.left.exists_isNeededAt
    have hcircular : Transform.IsCircular (v.neededTransforms shelves) :=
      ⟨i, transGen_reads hfids hf hi hi⟩
    exact ⟨.circle [], hpolicy, shelves, [], hshelves, hcircular, rfl⟩

theorem checkReferences_reports (t : Transform) :
    Reports [v.UnknownReference t] (v.checkReferences t) := by
  refine Reports.congr (fun e => (v.unknownReference_iff t e).symm) ?_
  rw [checkReferences]
  cases v.missing? t with
  | some fid => simp [Reports, firstOf_cons]
  | none => simp [Reports]

theorem checkedTransforms_reports {shelves : Shelves} (h : v.shelves s = .ok shelves) :
    Reports [v.ReferenceFault s] (v.checkedTransforms shelves) := by
  refine Reports.congr (fun e => ?_)
    ((Reports.forM v.checkReferences_reports (v.neededTransforms shelves)).join.map _)
  rw [ReferenceFault, h]
  simp

theorem orderedTransforms_reports {shelves : Shelves} (h : v.shelves s = .ok shelves) :
    Reports [v.CircleFault s] (orderedTransforms s (v.neededTransforms shelves)) := by
  have hcircle : ∀ e, v.CircleFault s e ↔ s.cyclePolicy = .reject ∧
      Transform.IsCircular (v.neededTransforms shelves) ∧ ∃ keys, e = .circle keys := by
    intro e
    simp [CircleFault, h]
  refine Reports.congr (fun e => (hcircle e).symm) ?_
  rw [orderedTransforms]
  cases hpolicy : s.cyclePolicy with
  | keep => simp [Transform.order, Reports]
  | reject =>
    cases horder : Transform.order .reject (v.neededTransforms shelves) with
    | ok ts =>
      have hacyclic := Transform.order_reject_isOk_iff.1 ⟨ts, horder⟩
      simp [Reports, hacyclic]
    | error keys =>
      have hcircular : Transform.IsCircular (v.neededTransforms shelves) := by
        by_contra hacyclic
        obtain ⟨ts, hts⟩ := Transform.order_reject_isOk_iff.2 hacyclic
        rw [horder] at hts
        cases hts
      simp [Reports, firstOf_cons, hcircular]

theorem compile_reports : Reports (v.faults s) (v.compile s) := by
  refine (v.shelves_reports s).bind fun shelves hs => ?_
  refine (v.rowFilters_reports false).bind fun raw _ => ?_
  refine (v.checkedTransforms_reports s hs).bind fun found hf => ?_
  obtain ⟨rfl, _⟩ := checkedTransforms_eq_ok_iff.1 hf
  refine (v.orderedTransforms_reports s hs).bind fun ts _ => ?_
  exact (v.rowFilters_reports true).bind fun computed _ => .ok _

/-- A view is compiled if nothing is wrong with it; otherwise the error is that of the first thing
that is wrong. -/
theorem compile_isOk_iff_and_firstOf :
    ((∃ p, v.compile s = .ok p) ↔ ∀ fault ∈ v.faults s, ∀ e, ¬ fault e) ∧
      ∀ e, v.compile s = .error e → FirstOf (v.faults s) e := by
  have hreports := v.compile_reports s
  cases hc : v.compile s with
  | ok p =>
    rw [hc] at hreports
    refine ⟨⟨?_, ?_⟩, ?_⟩
    · intro _
      exact hreports
    · intro _
      exact ⟨p, rfl⟩
    · intro e he
      cases he
  | error e =>
    rw [hc] at hreports
    refine ⟨⟨?_, ?_⟩, ?_⟩
    · rintro ⟨p, hp⟩
      cases hp
    · intro hnone
      exact absurd hreports (forall_not_firstOf_iff.2 hnone e)
    · rintro e' ⟨⟩
      exact hreports

end View

end ChartQuery
