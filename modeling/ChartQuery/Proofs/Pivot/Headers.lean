import ChartQuery.Pivot.Header

namespace ChartQuery

namespace HeaderValue

@[simp] theorem ofLiteral_toLiteral (v : HeaderValue) : ofLiteral v.toLiteral = v := by
  cases v <;> rfl

theorem mem_of_mem_insert {v w : HeaderValue} {ws : List HeaderValue} (h : w ∈ insert v ws) :
    w = v ∨ w ∈ ws := by
  induction ws with
  | nil => simpa [insert] using h
  | cons u us ih =>
    unfold insert at h
    split at h
    · simpa using h
    · exact .inr h
    · rcases List.mem_cons.mp h with rfl | h
      · simp
      · rcases ih h with rfl | h
        · simp
        · simp [h]

theorem insert_ne_nil (v : HeaderValue) (ws : List HeaderValue) : insert v ws ≠ [] := by
  cases ws with
  | nil => simp [insert]
  | cons w ws => unfold insert; split <;> simp

theorem mem_of_mem_foldl_insert {vs ws : List HeaderValue} {v : HeaderValue}
    (h : v ∈ vs.foldl (fun ws v => insert v ws) ws) : v ∈ vs ∨ v ∈ ws := by
  induction vs generalizing ws with
  | nil => exact .inr h
  | cons u us ih =>
    rcases ih h with h | h
    · simp [h]
    · rcases mem_of_mem_insert h with rfl | h
      · simp
      · simp [h]

theorem mem_of_mem_ascending {vs : List HeaderValue} {v : HeaderValue} (h : v ∈ ascending vs) :
    v ∈ vs := by
  rcases mem_of_mem_foldl_insert h with h | h
  · exact h
  · simp at h

theorem foldl_insert_ne_nil {vs ws : List HeaderValue} (h : vs ≠ [] ∨ ws ≠ []) :
    vs.foldl (fun ws v => insert v ws) ws ≠ [] := by
  induction vs generalizing ws with
  | nil => simpa using h
  | cons u us ih => exact ih (.inr (insert_ne_nil u ws))

theorem ascending_ne_nil {vs : List HeaderValue} (h : vs ≠ []) : ascending vs ≠ [] :=
  foldl_insert_ne_nil (.inl h)

end HeaderValue

namespace Header

/-- The header of one value of a dimension: collapsed, or with the headers of the remaining
dimensions beneath it. -/
def ofValue (c : Collapsed) (summary : Bool) (key : String) (dims : List String) (path : Path)
    (rows : List Row) (v : HeaderValue) : Header :=
  let here := path ++ [⟨key, v.toLiteral⟩]
  let collapsed := c.contains here
  let children :=
    if collapsed then []
    else
      withSummary summary here
        (beneath c summary dims here (rows.filter fun r => r.header key == v))
  ⟨key, v.toLiteral, here, here.length, children, collapsed, false⟩

section

variable (c : Collapsed) (summary : Bool) (key : String) (dims : List String) (path : Path)
  (rows : List Row) (v : HeaderValue)

theorem beneath_cons : beneath c summary (key :: dims) path rows =
    (HeaderValue.ascending (rows.map (·.header key))).map
      (ofValue c summary key dims path rows) := rfl

@[simp] theorem ofValue_path :
    (ofValue c summary key dims path rows v).path = path ++ [⟨key, v.toLiteral⟩] := rfl

theorem ofValue_children_of_collapsed (h : c.contains (path ++ [⟨key, v.toLiteral⟩]) = true) :
    (ofValue c summary key dims path rows v).children = [] := by
  simp [ofValue, h]

theorem ofValue_children (h : c.contains (path ++ [⟨key, v.toLiteral⟩]) = false) :
    (ofValue c summary key dims path rows v).children =
      withSummary summary (path ++ [⟨key, v.toLiteral⟩])
        (beneath c summary dims (path ++ [⟨key, v.toLiteral⟩])
          (rows.filter fun r => r.header key == v)) := by
  simp [ofValue, h]

end

/-- A header stands for at least one row. -/
theorem filter_ne_nil_of_mem_ascending {key : String} {rows : List Row} {v : HeaderValue}
    (h : v ∈ HeaderValue.ascending (rows.map (·.header key))) :
    (rows.filter fun r => r.header key == v) ≠ [] := by
  obtain ⟨r, hr, rfl⟩ := List.mem_map.mp (HeaderValue.mem_of_mem_ascending h)
  exact List.ne_nil_of_mem (List.mem_filter.mpr ⟨hr, BEq.rfl⟩)

theorem beneath_cons_ne_nil (c : Collapsed) (summary : Bool) (key : String) (dims : List String)
    (path : Path) {rows : List Row} (h : rows ≠ []) :
    beneath c summary (key :: dims) path rows ≠ [] := by
  rw [beneath_cons]
  simpa using HeaderValue.ascending_ne_nil (by simpa using h)

theorem mem_withSummary {summary : Bool} {path : Path} {children : List Header} {h : Header}
    (hm : h ∈ withSummary summary path children) :
    h ∈ children ∨ summary = true ∧ h = summaryOf path := by
  unfold withSummary at hm
  split at hm
  · rename_i hs
    rcases List.mem_append.mp hm with hm | hm
    · exact .inl hm
    · exact .inr ⟨by simp_all, by simpa using hm⟩
  · exact .inl hm

theorem subset_withSummary (summary : Bool) (path : Path) (children : List Header) :
    children ⊆ withSummary summary path children := by
  unfold withSummary
  split
  · exact List.subset_append_left ..
  · exact List.Subset.refl _

theorem summaryOf_mem_withSummary {path : Path} {children : List Header} (h : children ≠ []) :
    summaryOf path ∈ withSummary true path children := by
  simp [withSummary, h]

theorem mem_leavesIn {hs : List Header} {leaf : Header} :
    leaf ∈ leavesIn hs ↔ ∃ h ∈ hs, leaf ∈ h.leaves := by
  induction hs with
  | nil => simp [leavesIn]
  | cons h hs ih => simp [leavesIn, ih]

theorem leaves_of_children_eq_nil {h : Header} (hc : h.children = []) : h.leaves = [h] := by
  obtain ⟨key, value, path, depth, children, collapsed, summary⟩ := h
  cases hc
  rw [leaves]

theorem leaves_of_children_ne_nil {h : Header} (hc : h.children ≠ []) :
    h.leaves = leavesIn h.children := by
  obtain ⟨key, value, path, depth, children, collapsed, summary⟩ := h
  cases children with
  | nil => exact absurd rfl hc
  | cons child children => rw [leaves, leavesIn]

@[simp] theorem leaves_summaryOf (path : Path) : (summaryOf path).leaves = [summaryOf path] :=
  leaves_of_children_eq_nil rfl

end Header

end ChartQuery
