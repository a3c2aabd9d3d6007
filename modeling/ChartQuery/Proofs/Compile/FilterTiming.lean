import ChartQuery.Proofs.Compile.FilterGraft
import ChartQuery.Proofs.Compile.Transforms

namespace ChartQuery

/-- No filter that stands ahead of the transform reads a field that is computed there. -/
def Plan.IsTimely (p : Plan) : Prop := ∀ f ∈ p.filtersAhead, f.fid ∉ p.computedKeys

instance (p : Plan) : Decidable p.IsTimely := inferInstanceAs (Decidable (∀ _ ∈ _, _))

theorem Plan.IsLaidOut.isTimely_iff {p : Plan} {raw computed : List RowFilter}
    {ts : List Transform} (h : p.IsLaidOut raw ts computed) :
    p.IsTimely ↔ ∀ fid ∈ raw.map RowFilter.fid, fid ∉ ts.map Transform.key := by
  rw [IsTimely, h.computedKeys_eq, List.forall_mem_map]
  by_cases ht : ts = []
  · simp [ht]
  · rw [h.filtersAhead_eq ht]

namespace View

/-- The dataset computes the field. -/
def IsComputed (v : View) (fid : String) : Prop :=
  ∃ f ∈ v.allFields, f.fid = fid ∧ f.formula?.isSome = true

/-- A copy on the filter shelf of a field that the dataset computes says that it is computed. -/
def MarksComputed (v : View) : Prop :=
  ∀ f ∈ v.filters, f.isComputed = false → ¬ v.IsComputed f.fid

instance (v : View) : Decidable v.MarksComputed :=
  inferInstanceAs (Decidable (∀ _ ∈ _, _ → ¬ ∃ _ ∈ _, _))

variable {v : View} {s : Settings} {p : Plan}

theorem Uses.isComputed {keys : List String} {f : Field} (h : v.Uses keys f) :
    v.IsComputed f.fid := by
  cases h with
  | shown hf he => exact ⟨f, hf, rfl, by simp [he]⟩
  | read _ _ hf hd => exact ⟨f, hf, rfl, by simp [hd]⟩

theorem fid_mem_keys (shelves : Shelves) {f : ShelfFilter} (h : f ∈ v.filters) :
    f.fid ∈ v.keys shelves :=
  List.mem_append_right _ (List.mem_map_of_mem h)

/-- A filtered field is computed by the plan just when the dataset computes it: that it is filtered
is reason enough to compute it. -/
theorem Stages.AreOf.mem_keys_iff {g : Stages} (hg : g.AreOf v s) {fid : String}
    (hfid : fid ∈ v.keys g.shelves) :
    fid ∈ g.transforms.map Transform.key ↔ v.IsComputed fid := by
  constructor
  · intro h
    obtain ⟨t, ht, rfl⟩ := List.mem_map.1 h
    obtain ⟨f, e, huse, _, rfl⟩ := hg.mem_transforms_iff.1 ht
    exact huse.isComputed
  · rintro ⟨f, hf, rfl, he⟩
    obtain ⟨e, he⟩ := Option.isSome_iff_exists.1 he
    have ht : transformOf f e ∈ g.transforms :=
      hg.mem_transforms_iff.2 ⟨f, e, .shown hf he hfid, he, rfl⟩
    exact List.mem_map_of_mem ht

/-- A compiled plan filters in time just when no copy on the filter shelf hides that its field is
computed. -/
theorem isTimely_iff_of_compile (h : v.compile s = .ok p) : p.IsTimely ↔ v.MarksComputed := by
  obtain ⟨g, hg, rfl⟩ := compile_eq_ok.1 h
  rw [g.isLaidOut_plan.isTimely_iff, fids_of_rowFilters hg.rawFilters, List.forall_mem_map]
  constructor
  · intro htimely f hf hraw
    rw [← hg.mem_keys_iff (fid_mem_keys g.shelves hf)]
    exact htimely f (List.mem_filter.2 ⟨hf, by simp [hraw]⟩)
  · intro hmarks f hf
    obtain ⟨hf, hraw⟩ := List.mem_filter.1 hf
    rw [hg.mem_keys_iff (fid_mem_keys g.shelves hf)]
    exact hmarks f hf (by simpa using hraw)

section Gain

/-- The gain is filtered, and so is the cost that it is computed from. -/
def markedFilters : List ShelfFilter :=
  [⟨gain, some (.oneOf [.bool true])⟩, ⟨.new "cost" .measure, some (.oneOf [.null])⟩]

def markedPlan : Plan :=
  ⟨.filter [⟨"cost", .oneOf [.null]⟩] :: (gainPlan [.filter [gains]]).steps, none⟩

theorem isTimely_markedPlan :
    (gainView markedFilters).compile .default = .ok markedPlan ∧ markedPlan.IsTimely := by
  have hc : (gainView markedFilters).compile .default = .ok markedPlan := by with_unfolding_all rfl
  exact ⟨hc, (isTimely_iff_of_compile hc).2 (by decide)⟩

/-- The copy on the filter shelf does not say that the gain is computed. -/
def unmarkedFilters : List ShelfFilter := [⟨.new "gain" .dimension, some (.oneOf [.bool true])⟩]

def unmarkedPlan : Plan := ⟨.filter [gains] :: (gainPlan []).steps, none⟩

theorem not_isTimely_unmarkedPlan :
    (gainView unmarkedFilters).compile .default = .ok unmarkedPlan ∧ ¬ unmarkedPlan.IsTimely := by
  constructor
  · with_unfolding_all rfl
  · decide

end Gain

end View

end ChartQuery
