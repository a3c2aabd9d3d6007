import ChartQuery.Proofs.Pivot.Summaries

namespace ChartQuery

theorem mapM_eq_some_map {α β : Type} {f : α → Option β} {g : α → β} {xs : List α}
    (h : ∀ x ∈ xs, f x = some (g x)) : xs.mapM f = some (xs.map g) := by
  induction xs with
  | nil => rfl
  | cons x xs ih =>
    rw [List.forall_mem_cons] at h
    rw [List.mapM_cons, h.1, ih h.2]
    rfl

theorem Row.getElem?_headers {dims : List String} {n : Nat} {key : String}
    (h : dims[n]? = some key) (r : Row) : (r.headers dims)[n]? = some (r.header key) := by
  rw [headers, List.getElem?_map, h, Option.map_some]

namespace Header

section Counted

/-- A header that stands for all of the one above it. -/
def summaryBelow (h : Header) : Header := ⟨"", .null, h.path, h.depth + 1, [], false, true⟩

/-- The header with others beneath it, which its summary completes. -/
def spanning (summary : Bool) (h : Header) (children : List Header) : Header :=
  { h with
    children := if summary && !children.isEmpty then children ++ [h.summaryBelow] else children }

/-- The header of a value on the next level, one deeper than its parent. -/
def next (parent : Header) (key : String) (v : HeaderValue) : Header :=
  ⟨key, v.toLiteral, parent.path ++ [⟨key, v.toLiteral⟩], parent.depth + 1, [], false, false⟩

/-- The headers beneath a parent, whose depth says which of the dimensions comes next and at what
place of their paths the members have its value. There is no result if a path ends before that
place. -/
def beneathAt? (c : Collapsed) (summary : Bool) (dims : List String) (parent : Header)
    (members : List (List HeaderValue)) : Option (List Header) :=
  match _ : dims[parent.depth]? with
  | none => some []
  | some key => do
    let values ← members.mapM (·[parent.depth]?)
    (HeaderValue.ascending values).mapM fun v =>
      if c.contains (parent.next key v).path then
        some { parent.next key v with isCollapsed := true }
      else
        (beneathAt? c summary dims (parent.next key v)
          (members.filter fun m => m[parent.depth]?.any (· == v))).map
            ((parent.next key v).spanning summary)
termination_by dims.length - parent.depth
decreasing_by
  have hlevel := (List.getElem?_eq_some_iff.mp ‹dims[parent.depth]? = some key›).1
  exact Nat.sub_lt_sub_left hlevel (Nat.lt_succ_self _)

/-- The tree of an axis from the paths of the rows, built level by level. -/
def ofPaths? (c : Collapsed) (summary : Bool) (dims : List String)
    (members : List (List HeaderValue)) : Option Header :=
  let root : Header := ⟨"", .null, [], 0, [], false, false⟩
  (beneathAt? c summary dims root members).map (root.spanning summary)

variable (c : Collapsed) (summary : Bool) {dims : List String}

theorem spanning_eq {h : Header} (hdepth : h.depth = h.path.length) (children : List Header) :
    h.spanning summary children = { h with children := withSummary summary h.path children } := by
  rw [spanning, withSummary, summaryBelow, summaryOf, hdepth]

variable {c summary} in
theorem ofValue_of_contains {parent : Header} {key : String} {v : HeaderValue} {rows : List Row}
    (hnode : (parent.next key v).depth = (parent.next key v).path.length)
    (hc : c.contains (parent.next key v).path = true) :
    ofValue c summary key dims parent.path rows v =
      { parent.next key v with isCollapsed := true } := by
  have hlength : (parent.path ++ [(⟨key, v.toLiteral⟩ : Segment)]).length = parent.depth + 1 :=
    hnode.symm
  rw [next] at hc
  simp [ofValue, next, hc, hlength]

variable {c summary} in
theorem ofValue_of_not_contains {parent : Header} {key : String} {v : HeaderValue} {rows : List Row}
    (hnode : (parent.next key v).depth = (parent.next key v).path.length)
    (hc : ¬ c.contains (parent.next key v).path = true) :
    ofValue c summary key dims parent.path rows v =
      { parent.next key v with
        children := withSummary summary (parent.next key v).path
          (beneath c summary dims (parent.next key v).path
            (rows.filter fun r => r.header key == v)) } := by
  have hlength : (parent.path ++ [(⟨key, v.toLiteral⟩ : Segment)]).length = parent.depth + 1 :=
    hnode.symm
  rw [next] at hc
  simp [ofValue, next, hc, hlength]

/-- The members whose paths have a value at the level are the rows that have it. -/
theorem filter_headers {n : Nat} {key : String} (hkey : dims[n]? = some key) (v : HeaderValue)
    (rows : List Row) :
    (rows.map (·.headers dims)).filter (fun m => m[n]?.any (· == v)) =
      (rows.filter fun r => r.header key == v).map (·.headers dims) := by
  rw [List.filter_map]
  congr 2
  funext r
  rw [Function.comp_apply, r.getElem?_headers hkey, Option.any_some]

/-- Counting levels comes to the same as taking one dimension after the other. -/
theorem beneathAt?_eq_some {above rest : List String} {parent : Header}
    (hdims : dims = above ++ rest) (habove : parent.depth = above.length)
    (hdepth : parent.depth = parent.path.length) (rows : List Row) :
    beneathAt? c summary dims parent (rows.map (·.headers dims)) =
      some (beneath c summary rest parent.path rows) := by
  induction rest generalizing above parent rows with
  | nil =>
    rw [beneathAt?]
    split
    case h_1 => rfl
    case h_2 key hkey => simp [hdims, habove] at hkey
  | cons key rest ih =>
    have hkey : dims[parent.depth]? = some key := by
      rw [hdims, habove, List.getElem?_append_right (Nat.le_refl _), Nat.sub_self]
      rfl
    have hvalues : (rows.map (·.headers dims)).mapM (·[parent.depth]?) =
        some (rows.map (·.header key)) := by
      rw [List.mapM_map]
      exact mapM_eq_some_map fun r _ => r.getElem?_headers hkey
    rw [beneathAt?]
    split
    case h_1 hnone =>
      rw [hkey] at hnone
      cases hnone
    case h_2 key' hkey' =>
      obtain rfl : key = key' := Option.some.inj (hkey.symm.trans hkey')
      rw [hvalues, Option.bind_eq_bind, Option.bind_some, beneath_cons]
      refine mapM_eq_some_map fun v _ => ?_
      have hnode : (parent.next key v).depth = (parent.next key v).path.length := by
        simp [next, hdepth]
      have hbelow : (parent.next key v).depth = (above ++ [key]).length := by
        simp [next, habove]
      rw [filter_headers hkey]
      split
      case isTrue hc => exact congrArg some (ofValue_of_contains hnode hc).symm
      case isFalse hc =>
        rw [ih (by simp [hdims]) hbelow hnode, Option.map_some, spanning_eq summary hnode]
        exact congrArg some (ofValue_of_not_contains hnode hc).symm

/-- No path of a row ends before the place at which a level looks for its value. -/
theorem ofPaths?_eq_some (dims : List String) (rows : List Row) :
    ofPaths? c summary dims (rows.map (·.headers dims)) = some (ofRows c summary dims rows) := by
  have hchildren : beneathAt? c summary dims ⟨"", .null, [], 0, [], false, false⟩
      (rows.map (·.headers dims)) = some (beneath c summary dims [] rows) :=
    beneathAt?_eq_some c summary (List.nil_append dims).symm rfl rfl rows
  rw [ofPaths?, hchildren, Option.map_some, spanning_eq summary rfl]
  rfl

end Counted

section Positions

variable {c : Collapsed} {summary : Bool} {dims : List String} {rows : List Row}
  {h parent n : Header} {position : List Nat} {i : Nat}

theorem eq_of_at?_of_isLeaf (hc : h.children = []) (hn : h.at? position = some n) : n = h := by
  cases position with
  | nil => exact (Option.some.inj hn).symm
  | cons i position =>
    rw [at?_eq_none_of_isLeaf hc] at hn
    cases hn

theorem filter_withSummary {path : Path} {hs : List Header} (h : ∀ n ∈ hs, n.isSummary = false) :
    (withSummary summary path hs).filter (!·.isSummary) = hs := by
  have hkept : hs.filter (!·.isSummary) = hs := List.filter_eq_self.mpr fun n hn => by simp [h n hn]
  rw [withSummary]
  split
  · rw [List.filter_append, hkept]
    exact List.append_nil hs
  · exact hkept

theorem children_of_isCollapsed_ofValue {key : String} {path : Path} {v : HeaderValue}
    (hc : (ofValue c summary key dims path rows v).isCollapsed = true) :
    (ofValue c summary key dims path rows v).children = [] :=
  ofValue_children_of_collapsed _ _ _ _ _ _ _ hc

/-- A header has none beneath it only if it is collapsed or of the last dimension. -/
theorem children_ofValue_eq_nil_iff {key : String} {path : Path} {v : HeaderValue}
    (hv : v ∈ HeaderValue.ascending (rows.map (·.header key)))
    (hc : (ofValue c summary key dims path rows v).isCollapsed = false) :
    (ofValue c summary key dims path rows v).children = [] ↔ dims = [] := by
  rw [ofValue_children _ _ _ _ _ _ _ hc]
  cases dims with
  | nil => simp [beneath, withSummary]
  | cons key' dims =>
    have hne := beneath_cons_ne_nil c summary key' dims (path ++ [⟨key, v.toLiteral⟩])
      (filter_ne_nil_of_mem_ascending hv)
    refine iff_of_false (fun hnil => hne ?_) (List.cons_ne_nil _ _)
    exact List.eq_nil_of_subset_nil (hnil ▸ subset_withSummary summary _ _)

namespace Divides

/-- A header that is no summary is that of a value in the dimension of its level. -/
theorem exists_ofValue (hd : Divides c summary dims rows h) (hp : h.at? position = some parent)
    (hn : parent.children[i]? = some n) (hs : n.isSummary = false) :
    ∃ above key rest rows' v, dims = above ++ key :: rest ∧ above.length = position.length ∧
      parent.path.length = h.path.length + position.length ∧
      v ∈ HeaderValue.ascending (rows'.map (·.header key)) ∧
      n = ofValue c summary key rest parent.path rows' v := by
  induction position generalizing h dims rows with
  | nil =>
    obtain rfl := Option.some.inj hp
    rcases hd.child hn with rfl | ⟨key, rest, v, rfl, hv, rfl⟩
    · cases hs
    · exact ⟨[], key, rest, rows, v, rfl, rfl, rfl, List.mem_of_getElem? hv, rfl⟩
  | cons j position ih =>
    obtain ⟨child, hj, hp⟩ := at?_cons_eq_some_iff.mp hp
    have hleaf : child.children ≠ [] := by
      intro hnil
      rw [eq_of_at?_of_isLeaf hnil hp, hnil] at hn
      cases hn
    rcases hd.child hj with rfl | ⟨key, rest, v, rfl, -, rfl⟩
    · exact absurd rfl hleaf
    · have hopen : c.contains (h.path ++ [⟨key, v.toLiteral⟩]) = false := by
        rw [Bool.eq_false_iff]
        exact fun hc => hleaf (ofValue_children_of_collapsed _ _ _ _ _ _ _ hc)
      obtain ⟨above, key', rest', rows', w, hdims, habove, hlength, hw, rfl⟩ :=
        ih (ofValue_children _ _ _ _ _ _ _ hopen) hp
      refine ⟨key :: above, key', rest', rows', w, by rw [hdims]; rfl, ?_, ?_, hw, rfl⟩
      · rw [List.length_cons, habove, List.length_cons]
      · rw [hlength, ofValue_path, List.length_append, List.length_singleton, List.length_cons]
        omega

theorem exists_of_at? (hd : Divides c summary dims rows h) (hn : h.at? position = some n) :
    ∃ dims' rows', Divides c summary dims' rows' n := by
  cases position with
  | nil =>
    obtain rfl := Option.some.inj hn
    exact ⟨dims, rows, hd⟩
  | cons i position =>
    refine hd.of_at? (P := fun n => ∃ dims' rows', Divides c summary dims' rows' n) ?_ ?_ hn
    · exact fun path => ⟨[], [], by simp [Divides, beneath, withSummary, summaryOf]⟩
    · exact divides_ofValue c summary

/-- The headers beneath one stand in the order of their values. -/
theorem pairwise_children (hd : Divides c summary dims rows h) :
    (h.children.filter (!·.isSummary)).Pairwise fun a b =>
      (HeaderValue.ofLiteral a.value).cmp (.ofLiteral b.value) = .lt := by
  rw [hd, filter_withSummary fun _ => isSummary_of_mem_beneath]
  cases dims with
  | nil => exact .nil
  | cons key rest =>
    rw [beneath_cons, List.pairwise_map]
    refine (HeaderValue.isAscending_ascending _).imp fun {v w} hlt => ?_
    simpa [ofValue] using hlt

end Divides

end Positions

/-- The header stands beneath its parent on a level of the tree, as its depth, its path and its key
tell. -/
structure StandsOn (dims : List String) (level : Nat) (n parent : Header) : Prop where
  depth : n.depth = level
  level_pos : 1 ≤ level
  level_le : level ≤ dims.length
  length_path : n.path.length = level
  path : n.path = parent.path ++ [⟨n.key, n.value⟩]
  key : dims[level - 1]? = some n.key

/-- Each header that is no summary stands on the level to which its position leads. The headers
beneath one are strictly ascending, so their values differ. There are none beneath a header that is
collapsed, and none beneath one that is open only if it is of the last dimension. -/
structure IsLevelled (dims : List String) (tree : Header) : Prop where
  level : ∀ position (i : Nat) (parent n : Header), tree.at? position = some parent →
    parent.children[i]? = some n → n.isSummary = false →
      n.StandsOn dims (position.length + 1) parent
  ascending : ∀ position (n : Header), tree.at? position = some n →
    (n.children.filter (!·.isSummary)).Pairwise fun a b =>
      (HeaderValue.ofLiteral a.value).cmp (.ofLiteral b.value) = .lt
  distinct : ∀ position (n : Header), tree.at? position = some n →
    (n.children.filter (!·.isSummary)).Pairwise fun a b =>
      (HeaderValue.ofLiteral a.value == HeaderValue.ofLiteral b.value) = false
  collapsed : ∀ position (n : Header), tree.at? position = some n → n.isCollapsed = true →
    n.children = []
  last : ∀ position (i : Nat) (parent n : Header), tree.at? position = some parent →
    parent.children[i]? = some n → n.isSummary = false → n.isCollapsed = false →
      (n.children = [] ↔ n.depth = dims.length)

section Levels

variable {c : Collapsed} {summary : Bool} {dims : List String} {rows : List Row}
  {parent n : Header} {position : List Nat} {i : Nat}

theorem standsOn_of_at? (hp : (ofRows c summary dims rows).at? position = some parent)
    (hn : parent.children[i]? = some n) (hs : n.isSummary = false) :
    n.StandsOn dims (position.length + 1) parent := by
  obtain ⟨above, key, rest, rows', v, rfl, habove, hlength, -, rfl⟩ :=
    (divides_ofRows c summary dims rows).exists_ofValue hp hn hs
  have hpath : (parent.path ++ [(⟨key, v.toLiteral⟩ : Segment)]).length = position.length + 1 := by
    rw [List.length_append, hlength]
    simp [ofRows]
  constructor
  case depth => exact hpath
  case level_pos => omega
  case level_le => simp [← habove]
  case length_path => exact hpath
  case path => rfl
  case key =>
    rw [Nat.add_sub_cancel, ← habove]
    simp [ofValue]

theorem children_eq_nil_iff_of_at? (hp : (ofRows c summary dims rows).at? position = some parent)
    (hn : parent.children[i]? = some n) (hs : n.isSummary = false) (hc : n.isCollapsed = false) :
    n.children = [] ↔ n.depth = dims.length := by
  have hdepth := (standsOn_of_at? hp hn hs).depth
  obtain ⟨above, key, rest, rows', v, rfl, habove, -, hv, rfl⟩ :=
    (divides_ofRows c summary dims rows).exists_ofValue hp hn hs
  rw [children_ofValue_eq_nil_iff hv hc, hdepth, ← habove, ← List.length_eq_zero_iff]
  rw [List.length_append, List.length_cons]
  omega

theorem isLevelled_ofRows (c : Collapsed) (summary : Bool) (dims : List String) (rows : List Row) :
    IsLevelled dims (ofRows c summary dims rows) := by
  have hd := divides_ofRows c summary dims rows
  have hascending : ∀ position n, (ofRows c summary dims rows).at? position = some n →
      (n.children.filter (!·.isSummary)).Pairwise fun a b =>
        (HeaderValue.ofLiteral a.value).cmp (.ofLiteral b.value) = .lt := by
    intro position n hn
    obtain ⟨dims', rows', hdn⟩ := hd.exists_of_at? hn
    exact hdn.pairwise_children
  constructor
  case level => exact fun position i parent n => standsOn_of_at?
  case ascending => exact hascending
  case distinct =>
    exact fun position n hn =>
      (hascending position n hn).imp fun hlt => HeaderValue.beq_eq_false_of_cmp_eq_lt hlt
  case collapsed =>
    intro position n hn
    cases position with
    | nil =>
      obtain rfl := Option.some.inj hn
      exact fun hc => by cases hc
    | cons i position =>
      refine hd.of_at? (P := fun n => n.isCollapsed = true → n.children = []) ?_ ?_ hn
      · exact fun _ _ => rfl
      · exact fun _ _ _ _ _ => children_of_isCollapsed_ofValue
  case last => exact fun position i parent n => children_eq_nil_iff_of_at?

end Levels

/-- Every tree of an axis is levelled, and the count of its levels never leads past the end of a
path. -/
theorem ofRows_levels (c : Collapsed) (summary : Bool) (dims : List String) (rows : List Row) :
    IsLevelled dims (ofRows c summary dims rows) ∧
      ofPaths? c summary dims (rows.map (·.headers dims)) = some (ofRows c summary dims rows) :=
  ⟨isLevelled_ofRows c summary dims rows, ofPaths?_eq_some c summary dims rows⟩

end Header

end ChartQuery
