import ChartQuery.Transform.Basic

namespace ChartQuery.Transform

def readBy (frontier : List Transform) (t : Transform) : Bool :=
  (frontier.flatMap references).contains t.key

theorem length_lt_of_partition {α : Type} {p : α → Bool} {xs found left : List α} {x : α}
    (h : xs.partition p = (x :: found, left)) : left.length < xs.length := by
  rw [List.partition_eq_filter_filter, Prod.mk.injEq] at h
  obtain ⟨hf, rfl⟩ := h
  have hx : x ∈ xs.filter p := by simp [hf]
  obtain ⟨hm, hp⟩ := List.mem_filter.1 hx
  exact List.length_filter_lt_length_iff_exists.2 ⟨x, hm, by simp [hp]⟩

/-- The transforms of `rest` that the frontier reads, directly or through others of `rest`, round
by round; each round keeps the order of `rest`. -/
def discover (frontier rest : List Transform) : List Transform :=
  match _ : rest.partition (readBy frontier) with
  | ([], _) => []
  | (t :: found, left) => t :: found ++ discover (t :: found) left
termination_by rest.length
decreasing_by exact length_lt_of_partition ‹_›

/-- The transforms that the keys need. -/
def needed (keys : List String) (ts : List Transform) : List Transform :=
  let named := ts.filter fun t => keys.contains t.key
  named ++ discover named (ts.filter fun t => !keys.contains t.key)

end ChartQuery.Transform
