import ChartQuery.Transform.Needed
import ChartQuery.Transform.Order
import ChartQuery.Proofs.Transform.Reach

namespace ChartQuery.Transform

/-- A rewriting that leaves keys and references alone. -/
structure KeepsReferences (f : Transform → Transform) : Prop where
  key : ∀ t, (f t).key = t.key
  references : ∀ t, (f t).references = t.references

namespace KeepsReferences

variable {f : Transform → Transform} (h : KeepsReferences f)

include h

theorem map_key (ts : List Transform) : (ts.map f).map Transform.key = ts.map Transform.key := by
  rw [List.map_map]
  exact List.map_congr_left fun t _ => h.key t

theorem readBy_map (frontier : List Transform) (t : Transform) :
    readBy (frontier.map f) (f t) = readBy frontier t := by
  simp only [readBy, List.flatMap_map, h.references, h.key]

/-- A round finds the same. -/
theorem partition_map {frontier rest found left : List Transform}
    (hround : rest.partition (readBy frontier) = (found, left)) :
    (rest.map f).partition (readBy (frontier.map f)) = (found.map f, left.map f) := by
  rw [List.partition_eq_filter_filter, Prod.mk.injEq] at hround ⊢
  obtain ⟨rfl, rfl⟩ := hround
  have hread : readBy (frontier.map f) ∘ f = readBy frontier := funext (h.readBy_map frontier)
  rw [List.filter_map, List.filter_map, ← hread]
  exact ⟨rfl, rfl⟩

theorem discover_map (frontier rest : List Transform) :
    discover (frontier.map f) (rest.map f) = (discover frontier rest).map f := by
  fun_induction discover frontier rest with
  | case1 frontier rest left hround => exact discover_of_nothing (h.partition_map hround)
  | case2 frontier rest t found left hround ih =>
    rw [discover_of_found (h.partition_map hround), List.map_append, ← ih, List.map_cons]

theorem needed_map (keys : List String) (ts : List Transform) :
    needed keys (ts.map f) = (needed keys ts).map f := by
  have hnamed : (fun t => keys.contains t.key) ∘ f = fun t => keys.contains t.key := by
    funext t
    rw [Function.comp_apply, h.key]
  have hothers : (fun t => !keys.contains t.key) ∘ f = fun t => !keys.contains t.key := by
    funext t
    rw [Function.comp_apply, h.key]
  rw [needed, needed, List.filter_map, List.filter_map, hnamed, hothers, h.discover_map,
    List.map_append]

theorem precedents_map (ts : List Transform) : precedents (ts.map f) = precedents ts := by
  rw [precedents, h.map_key, List.map_map, precedents]
  refine List.map_congr_left fun t _ => ?_
  rw [Function.comp_apply, h.references]

theorem placement_map (ts : List Transform) : placement (ts.map f) = placement ts := by
  rw [placement, placement, h.precedents_map, List.length_map]

omit h in
theorem select_map (ts : List Transform) (positions : List Nat) :
    select (ts.map f) positions = (select ts positions).map f := by
  simp only [select, List.map_filterMap, List.getElem?_map]

theorem keysAt_map (ts : List Transform) (positions : List Nat) :
    keysAt (ts.map f) positions = keysAt ts positions := by
  rw [keysAt, select_map, h.map_key, keysAt]

/-- The order is the same, and so is the circle for which it is refused. -/
theorem order_map (policy : CyclePolicy) (ts : List Transform) :
    order policy (ts.map f) = (order policy ts).map (List.map f) := by
  simp only [order, h.placement_map, h.precedents_map, h.keysAt_map, select_map]
  cases policy with
  | keep => rfl
  | reject =>
    by_cases hstuck : (placement ts).2 = []
    · simp only [hstuck, if_true, Except.map]
    · simp only [hstuck, if_false, Except.map]

end KeepsReferences

end ChartQuery.Transform
