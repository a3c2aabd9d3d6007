import ChartQuery.Compile.Basic
import ChartQuery.Proofs.Plan.Layout

namespace ChartQuery

theorem except_bind_eq_ok {ε α β : Type} {x : Except ε α} {f : α → Except ε β} {b : β} :
    x >>= f = .ok b ↔ ∃ a, x = .ok a ∧ f a = .ok b := by
  cases x with
  | error e => simp [bind, Except.bind]
  | ok a => simp [bind, Except.bind]

section Traversal

variable {α β ε : Type}

theorem forM_eq_ok_iff {f : α → Except ε Unit} {xs : List α} :
    xs.forM f = .ok () ↔ ∀ x ∈ xs, f x = .ok () := by
  induction xs with
  | nil => simp [pure, Except.pure]
  | cons x xs ih =>
    rw [List.forM, except_bind_eq_ok, List.forall_mem_cons, ← ih]
    constructor
    · rintro ⟨_, hx, hxs⟩
      exact ⟨hx, hxs⟩
    · rintro ⟨hx, hxs⟩
      exact ⟨(), hx, hxs⟩

/-- A traversal succeeds with what its steps give, each of which succeeds. -/
theorem mapM_eq_ok_iff {f : α → Except ε β} {xs : List α} {ys : List β} :
    xs.mapM f = .ok ys ↔ xs.map f = ys.map .ok := by
  induction xs generalizing ys with
  | nil => cases ys <;> simp [pure, Except.pure]
  | cons x xs ih =>
    simp only [List.mapM_cons, except_bind_eq_ok, pure, Except.pure, ih]
    cases ys with
    | nil => simp
    | cons y ys => simp

theorem exists_of_mem_mapM_eq_ok {f : α → Except ε β} {xs : List α} {ys : List β}
    (h : xs.mapM f = .ok ys) {y : β} (hy : y ∈ ys) : ∃ x ∈ xs, f x = .ok y := by
  have hmem : (.ok y : Except ε β) ∈ xs.map f := by
    rw [mapM_eq_ok_iff.1 h]
    exact List.mem_map_of_mem hy
  exact List.mem_map.1 hmem

/-- What is the same before and after each step of a traversal is the same of its lists. -/
theorem map_eq_of_mapM_eq_ok {κ : Type} {f : α → Except ε β} {k : α → κ} {l : β → κ}
    (hf : ∀ x y, f x = .ok y → l y = k x) {xs : List α} {ys : List β}
    (h : xs.mapM f = .ok ys) : ys.map l = xs.map k := by
  induction xs generalizing ys with
  | nil =>
    cases h
    rfl
  | cons x xs ih =>
    simp only [List.mapM_cons, except_bind_eq_ok] at h
    obtain ⟨y, hy, zs, hzs, h⟩ := h
    cases h
    rw [List.map_cons, List.map_cons, hf x y hy, ih hzs]

theorem mapM_congr_of_mem {f g : α → Except ε β} {xs : List α} (h : ∀ x ∈ xs, f x = g x) :
    xs.mapM f = xs.mapM g := by
  induction xs with
  | nil => rfl
  | cons x xs ih =>
    rw [List.forall_mem_cons] at h
    rw [List.mapM_cons, List.mapM_cons, h.1, ih h.2]

theorem forM_congr_of_mem {f g : α → Except ε Unit} {xs : List α} (h : ∀ x ∈ xs, f x = g x) :
    xs.forM f = xs.forM g := by
  induction xs with
  | nil => rfl
  | cons x xs ih =>
    rw [List.forall_mem_cons] at h
    rw [List.forM, List.forM, h.1, ih h.2]

end Traversal

theorem ShelfFilter.fid_of_compile {f : ShelfFilter} {r : RowFilter} (h : f.compile = .ok r) :
    r.fid = f.fid := by
  rw [compile] at h
  cases hc : f.condition with
  | ok c =>
    rw [hc] at h
    cases h
    rfl
  | error fault =>
    rw [hc] at h
    cases h

namespace View

theorem fids_of_rowFilters {v : View} {computed : Bool} {fs : List RowFilter}
    (h : v.rowFilters computed = .ok fs) :
    fs.map RowFilter.fid =
      (v.filters.filter (·.isComputed == computed)).map ShelfFilter.fid :=
  map_eq_of_mapM_eq_ok (fun _ _ => ShelfFilter.fid_of_compile) h

/-- What the stages of a compilation give, up to the plan. -/
structure Stages where
  shelves : Shelves
  rawFilters : List RowFilter
  found : List Transform
  transforms : List Transform
  computedFilters : List RowFilter

namespace Stages

variable (v : View) (s : Settings) (g : Stages)

/-- Each stage of the compilation succeeds with what is recorded. -/
structure AreOf : Prop where
  shelves : v.shelves s = .ok g.shelves
  rawFilters : v.rowFilters false = .ok g.rawFilters
  found : v.checkedTransforms g.shelves = .ok g.found
  transforms : orderedTransforms s g.found = .ok g.transforms
  computedFilters : v.rowFilters true = .ok g.computedFilters

def viewQuery : ViewQuery := query s g.shelves (v.isAggregated g.shelves)

def sortStep? : Option Step := v.sortStep? s g.shelves (v.isAggregated g.shelves)

def plan : Plan :=
  .ofSteps [some (.filter g.rawFilters), some (.transform g.transforms),
    some (.filter g.computedFilters), some (.view [g.viewQuery v s]), g.sortStep? v s] v.limit

end Stages

variable {v : View} {s : Settings} {p : Plan}

theorem compile_eq_ok : v.compile s = .ok p ↔ ∃ g : Stages, g.AreOf v s ∧ g.plan v s = p := by
  simp only [compile, except_bind_eq_ok]
  constructor
  · rintro ⟨shelves, hs, raw, hr, found, hf, ts, ht, computed, hc, hp⟩
    exact ⟨⟨shelves, raw, found, ts, computed⟩, ⟨hs, hr, hf, ht, hc⟩, Except.ok.inj hp⟩
  · rintro ⟨g, h, rfl⟩
    exact ⟨g.shelves, h.shelves, g.rawFilters, h.rawFilters, g.found, h.found, g.transforms,
      h.transforms, g.computedFilters, h.computedFilters, rfl⟩

theorem kind_of_sortStep? {shelves : Shelves} {aggregated : Bool} {step : Step}
    (h : v.sortStep? s shelves aggregated = some step) : step.kind = .sort := by
  rw [sortStep?] at h
  split at h
  · rw [Option.map_eq_some_iff] at h
    obtain ⟨direction, _, rfl⟩ := h
    rfl
  · simp at h

theorem Stages.steps_plan (g : Stages) :
    (g.plan v s).steps = Plan.prepared g.rawFilters g.transforms g.computedFilters ++
      .view [g.viewQuery v s] :: (g.sortStep? v s).toList.flatMap Step.kept := by
  have hview : (Step.view [g.viewQuery v s]).kept = [.view [g.viewQuery v s]] := rfl
  simp [plan, Plan.steps_ofSteps, Plan.prepared, hview]

theorem Stages.not_isEmpty_of_mem_plan (g : Stages) :
    ∀ step ∈ (g.plan v s).steps, step.isEmpty = false := by
  intro step h
  simpa using (List.mem_filter.1 h).2

theorem Stages.kind_of_mem_sorts (g : Stages) :
    ∀ step ∈ (g.sortStep? v s).toList.flatMap Step.kept, step.kind = .sort := by
  intro step h
  simp only [List.mem_flatMap, Option.mem_toList, Step.mem_kept] at h
  obtain ⟨sort, hs, rfl, _⟩ := h
  exact kind_of_sortStep? hs

theorem Stages.isLaidOut_plan (g : Stages) :
    (g.plan v s).IsLaidOut g.rawFilters g.transforms g.computedFilters :=
  ⟨[g.viewQuery v s], (g.sortStep? v s).toList.flatMap Step.kept, g.kind_of_mem_sorts,
    g.steps_plan⟩

end View

end ChartQuery
