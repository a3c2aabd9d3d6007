import ChartQuery.Proofs.Pivot.Positions

namespace ChartQuery.Header

mutual

/-- The tree with all summaries beneath its root taken out. -/
def withoutSummaries : Header → Header
  | ⟨key, value, path, depth, children, collapsed, summary⟩ =>
    ⟨key, value, path, depth, withoutSummariesIn children, collapsed, summary⟩

def withoutSummariesIn : List Header → List Header
  | [] => []
  | h :: hs =>
    if h.isSummary then withoutSummariesIn hs else withoutSummaries h :: withoutSummariesIn hs

end

theorem withoutSummaries_eq (h : Header) :
    h.withoutSummaries = { h with children := withoutSummariesIn h.children } := by
  cases h
  rw [withoutSummaries]

theorem withoutSummariesIn_append (hs ks : List Header) :
    withoutSummariesIn (hs ++ ks) = withoutSummariesIn hs ++ withoutSummariesIn ks := by
  induction hs with
  | nil => rfl
  | cons h hs ih =>
    rw [List.cons_append, withoutSummariesIn, withoutSummariesIn, ih]
    split
    · rfl
    · rfl

@[simp] theorem withSummary_false (path : Path) (hs : List Header) :
    withSummary false path hs = hs := rfl

theorem withoutSummariesIn_withSummary (summary : Bool) (path : Path) (hs : List Header) :
    withoutSummariesIn (withSummary summary path hs) = withoutSummariesIn hs := by
  unfold withSummary
  split
  · simp [withoutSummariesIn_append, withoutSummariesIn, summaryOf]
  · rfl

theorem withoutSummariesIn_map {α : Type} {f : α → Header} (hf : ∀ a, (f a).isSummary = false)
    (xs : List α) : withoutSummariesIn (xs.map f) = xs.map fun a => (f a).withoutSummaries := by
  induction xs with
  | nil => rfl
  | cons x xs ih => simp [withoutSummariesIn, hf, ih]

theorem withoutSummariesIn_beneath (c : Collapsed) (summary : Bool) (dims : List String)
    (path : Path) (rows : List Row) :
    withoutSummariesIn (beneath c summary dims path rows) = beneath c false dims path rows := by
  induction dims generalizing path rows with
  | nil => rfl
  | cons key dims ih =>
    rw [beneath_cons, beneath_cons, withoutSummariesIn_map fun _ => rfl]
    refine List.map_congr_left fun v _ => ?_
    rw [withoutSummaries_eq]
    cases hc : c.contains (path ++ [⟨key, v.toLiteral⟩]) with
    | true => simp [ofValue, hc, withoutSummariesIn]
    | false => simp [ofValue, hc, withoutSummariesIn_withSummary, ih]

/-- The tree without its summaries is the one that is built without them. -/
theorem withoutSummaries_ofRows (c : Collapsed) (summary : Bool) (dims : List String)
    (rows : List Row) :
    (ofRows c summary dims rows).withoutSummaries = ofRows c false dims rows := by
  rw [withoutSummaries_eq, ofRows, ofRows, withoutSummariesIn_withSummary,
    withoutSummariesIn_beneath, withSummary_false]

/-- The header has nothing beneath it, or other headers and behind them its only summary. -/
def IsSummedUp (h : Header) : Prop :=
  h.children = [] ∨ ∃ parts s, h.children = parts ++ [s] ∧ parts ≠ [] ∧
    (∀ part ∈ parts, part.isSummary = false) ∧ s.isSummary = true ∧ s.children = [] ∧
    s.depth = h.depth + 1 ∧ s.path = h.path

/-- A header with other headers beneath it, which are no summaries, is completed by its summary. -/
theorem isSummedUp_of_withSummary {h : Header} {parts : List Header}
    (hchildren : h.children = withSummary true h.path parts)
    (hparts : ∀ part ∈ parts, part.isSummary = false) (hdepth : h.depth = h.path.length) :
    h.IsSummedUp := by
  rw [withSummary, Bool.true_and] at hchildren
  cases parts with
  | nil => exact .inl hchildren
  | cons part parts =>
    exact .inr ⟨part :: parts, summaryOf h.path, hchildren, List.cons_ne_nil _ _, hparts, rfl, rfl,
      by rw [hdepth]; rfl, rfl⟩

theorem isSummary_of_mem_beneath {c : Collapsed} {summary : Bool} {dims : List String}
    {path : Path} {rows : List Row} {h : Header} (hm : h ∈ beneath c summary dims path rows) :
    h.isSummary = false := by
  cases dims with
  | nil => cases hm
  | cons key dims =>
    rw [beneath_cons] at hm
    obtain ⟨v, -, rfl⟩ := List.mem_map.mp hm
    rfl

theorem isSummedUp_ofValue (c : Collapsed) (key : String) (dims : List String) (path : Path)
    (rows : List Row) (v : HeaderValue) : (ofValue c true key dims path rows v).IsSummedUp := by
  obtain ⟨dims', rows', hd⟩ := divides_ofValue c true key dims path rows v
  exact isSummedUp_of_withSummary hd (fun _ => isSummary_of_mem_beneath) rfl

/-- With summaries on, every header of the tree is completed by its summary if anything is beneath
it. Taking the summaries out gives the tree with summaries off. -/
theorem ofRows_isSummedUp (c : Collapsed) (dims : List String) (rows : List Row) :
    (ofRows c true dims rows).withoutSummaries = ofRows c false dims rows ∧
      ∀ position n, (ofRows c true dims rows).at? position = some n → n.IsSummedUp := by
  refine ⟨withoutSummaries_ofRows c true dims rows, ?_⟩
  intro position n hn
  have hd := divides_ofRows c true dims rows
  cases position with
  | nil =>
    obtain rfl := Option.some.inj hn
    exact isSummedUp_of_withSummary hd (fun _ => isSummary_of_mem_beneath) rfl
  | cons i position =>
    exact hd.of_at? (fun _ => .inl rfl) (isSummedUp_ofValue c) hn

end ChartQuery.Header
