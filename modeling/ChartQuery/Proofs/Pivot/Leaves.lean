import ChartQuery.Proofs.Pivot.HeaderOrder
import ChartQuery.Proofs.Pivot.Paths

namespace ChartQuery

theorem append_isPrefixOf_append {α : Type} [BEq α] [ReflBEq α] (as bs cs : List α) :
    (as ++ bs).isPrefixOf (as ++ cs) = bs.isPrefixOf cs := by
  induction as with
  | nil => rfl
  | cons a as ih => simp [List.isPrefixOf_cons_cons, ih]

theorem isPrefixOf_congr {α : Type} [BEq α] [EquivBEq α] {as bs cs : List α}
    (h : (bs == cs) = true) : as.isPrefixOf bs = as.isPrefixOf cs := by
  induction as generalizing bs cs with
  | nil => simp
  | cons a as ih =>
    cases bs with
    | nil =>
      cases cs with
      | nil => rfl
      | cons c cs => simp at h
    | cons b bs =>
      cases cs with
      | nil => simp at h
      | cons c cs =>
        rw [List.cons_beq_cons, Bool.and_eq_true] at h
        have hhead : (a == b) = (a == c) := BEq.congr_right h.1
        have htail : as.isPrefixOf bs = as.isPrefixOf cs := ih h.2
        rw [List.isPrefixOf_cons_cons, List.isPrefixOf_cons_cons, hhead, htail]

/-- If each part has one element that counts or none, the counting of elements is one of parts. -/
theorem countP_flatMap_eq_countP {α β : Type} {f : α → List β} {p : β → Bool} {q : α → Bool}
    {xs : List α} (h : ∀ x ∈ xs, (f x).countP p = if q x then 1 else 0) :
    (xs.flatMap f).countP p = xs.countP q := by
  induction xs with
  | nil => rfl
  | cons x xs ih =>
    rw [List.flatMap_cons, List.countP_append, List.countP_cons, h x List.mem_cons_self,
      ih fun y hy => h y (List.mem_cons_of_mem x hy), Nat.add_comm]

namespace Header

theorem leavesIn_eq_flatMap (hs : List Header) : leavesIn hs = hs.flatMap leaves := by
  induction hs with
  | nil => rfl
  | cons h hs ih => rw [leavesIn, ih, List.flatMap_cons]

/-- The header stands for the rows with these values; a summary stands for none. -/
def shows (h : Header) (vs : List HeaderValue) : Bool :=
  !h.isSummary && h.path.headers.isPrefixOf vs

/-- The header arranges rows by the remaining dimensions: it is a leaf because none remains or
because it is collapsed, or it has a header for each value of the next dimension, which arranges
the rows with this value, and behind these its summary. -/
inductive Arranges (c : Collapsed) (summary : Bool) : List String → List Row → Header → Prop where
  | leaf {dims : List String} {rows : List Row} {h : Header} (hrows : rows ≠ [])
    (hsummary : h.isSummary = false) (hchildren : h.children = [])
    (hend : dims = [] ∧ h.isCollapsed = false ∨ h.isCollapsed = true ∧ c.contains h.path = true) :
    Arranges c summary dims rows h
  | level {key : String} {dims : List String} {rows : List Row} {h : Header}
    {child : HeaderValue → Header} (hrows : rows ≠ []) (hopen : h.isCollapsed = false)
    (hchildren : h.children = withSummary summary h.path
      ((HeaderValue.ascending (rows.map (·.header key))).map child))
    (hpath : ∀ v, (child v).path = h.path ++ [⟨key, v.toLiteral⟩])
    (harranges : ∀ v ∈ HeaderValue.ascending (rows.map (·.header key)),
      Arranges c summary dims (rows.filter fun r => r.header key == v) (child v)) :
    Arranges c summary (key :: dims) rows h

variable {c : Collapsed} {summary : Bool} {dims : List String} {rows : List Row} {h : Header}

theorem arranges_of_children_eq (hrows : rows ≠ []) (hsummary : h.isSummary = false)
    (hopen : h.isCollapsed = false)
    (hchildren : h.children = withSummary summary h.path (beneath c summary dims h.path rows)) :
    Arranges c summary dims rows h := by
  induction dims generalizing rows h with
  | nil =>
    exact .leaf hrows hsummary (by simpa [beneath, withSummary] using hchildren) (.inl ⟨rfl, hopen⟩)
  | cons key dims ih =>
    rw [beneath_cons] at hchildren
    refine .level hrows hopen hchildren (fun v => rfl) fun v hv => ?_
    have hne := filter_ne_nil_of_mem_ascending hv
    cases hc : c.contains (h.path ++ [⟨key, v.toLiteral⟩]) with
    | true => exact .leaf hne rfl (ofValue_children_of_collapsed _ _ _ _ _ _ _ hc) (.inr ⟨hc, hc⟩)
    | false => exact ih hne rfl hc (ofValue_children _ _ _ _ _ _ _ hc)

theorem arranges_ofRows (c : Collapsed) (summary : Bool) (dims : List String) {rows : List Row}
    (hrows : rows ≠ []) : Arranges c summary dims rows (ofRows c summary dims rows) :=
  arranges_of_children_eq hrows rfl rfl rfl

/-- The leaves beneath a header with several levels, its summary last. -/
theorem leaves_of_level {key : String} {child : HeaderValue → Header} (hrows : rows ≠ [])
    (hchildren : h.children = withSummary summary h.path
      ((HeaderValue.ascending (rows.map (·.header key))).map child)) :
    h.leaves = (HeaderValue.ascending (rows.map (·.header key))).flatMap (fun v => (child v).leaves)
      ++ if summary then [summaryOf h.path] else [] := by
  have hvalues : HeaderValue.ascending (rows.map (·.header key)) ≠ [] :=
    HeaderValue.ascending_ne_nil (by simpa using hrows)
  have hne : h.children ≠ [] := by
    obtain ⟨v, hv⟩ := List.exists_mem_of_ne_nil _ hvalues
    rw [hchildren]
    exact List.ne_nil_of_mem (subset_withSummary _ _ _ (List.mem_map_of_mem hv))
  rw [leaves_of_children_ne_nil hne, hchildren, leavesIn_eq_flatMap]
  cases summary with
  | false => simp [withSummary, List.flatMap_map]
  | true => simp [withSummary, hvalues, List.flatMap_append, List.flatMap_map]

theorem mem_leaves_of_level {key : String} {child : HeaderValue → Header} (hrows : rows ≠ [])
    (hchildren : h.children = withSummary summary h.path
      ((HeaderValue.ascending (rows.map (·.header key))).map child)) {leaf : Header} :
    leaf ∈ h.leaves ↔
      (∃ v ∈ HeaderValue.ascending (rows.map (·.header key)), leaf ∈ (child v).leaves) ∨
        summary = true ∧ leaf = summaryOf h.path := by
  rw [leaves_of_level hrows hchildren, List.mem_append, List.mem_flatMap]
  cases summary <;> simp

namespace Arranges

/-- The path of every leaf leads through the header. -/
theorem exists_headers_eq (ha : Arranges c summary dims rows h) {leaf : Header}
    (hl : leaf ∈ h.leaves) : ∃ vs, leaf.path.headers = h.path.headers ++ vs := by
  induction ha with
  | leaf hrows hsummary hchildren =>
    rw [leaves_of_children_eq_nil hchildren] at hl
    obtain rfl := List.mem_singleton.mp hl
    exact ⟨[], by simp⟩
  | level hrows _ hchildren hpath harranges ih =>
    rcases (mem_leaves_of_level hrows hchildren).mp hl with ⟨v, hv, hl⟩ | ⟨-, rfl⟩
    · obtain ⟨vs, hvs⟩ := ih v hv hl
      exact ⟨v :: vs, by simp [hvs, hpath]⟩
    · exact ⟨[], by simp [summaryOf]⟩

/-- A leaf beneath the header of a value stands for no rows with another value. -/
theorem shows_cons (ha : Arranges c summary dims rows h) {p : List HeaderValue} {v : HeaderValue}
    (hpath : h.path.headers = p ++ [v]) {leaf : Header} (hl : leaf ∈ h.leaves) (w : HeaderValue)
    (ws : List HeaderValue) :
    leaf.shows (p ++ w :: ws) = (v == w && leaf.shows (h.path.headers ++ ws)) := by
  obtain ⟨vs, hvs⟩ := ha.exists_headers_eq hl
  rw [shows, shows, hvs, hpath, List.append_assoc, List.append_assoc, append_isPrefixOf_append,
    append_isPrefixOf_append]
  cases leaf.isSummary <;> simp [List.isPrefixOf_cons_cons]

/-- Every row is beneath just one leaf. -/
theorem countP_leaves (ha : Arranges c summary dims rows h) {r : Row} (hr : r ∈ rows) :
    h.leaves.countP (·.shows (h.path.headers ++ r.headers dims)) = 1 := by
  induction ha with
  | leaf hrows hsummary hchildren =>
    rw [leaves_of_children_eq_nil hchildren]
    simp [shows, hsummary, isPrefixOf_append]
  | @level key dims rows h child hrows _ hchildren hpath harranges ih =>
    have hcount : ∀ v ∈ HeaderValue.ascending (rows.map (·.header key)),
        (child v).leaves.countP (·.shows (h.path.headers ++ r.headers (key :: dims))) =
          if v == r.header key then 1 else 0 := by
      intro v hv
      have hshows : ∀ leaf ∈ (child v).leaves,
          leaf.shows (h.path.headers ++ r.headers (key :: dims)) =
            (v == r.header key && leaf.shows ((child v).path.headers ++ r.headers dims)) :=
        fun leaf hl => (harranges v hv).shows_cons (by simp [hpath]) hl _ _
      rw [List.countP_congr (fun leaf hl => by rw [hshows leaf hl])]
      cases he : v == r.header key with
      | true => simpa using ih v hv (List.mem_filter.mpr ⟨hr, BEq.symm he⟩)
      | false => simp
    obtain ⟨w, hw, he⟩ := HeaderValue.exists_beq_ascending
      (List.mem_map_of_mem (f := (·.header key)) hr)
    rw [leaves_of_level hrows hchildren, List.countP_append, countP_flatMap_eq_countP hcount,
      (HeaderValue.isAscending_ascending _).countP_beq hw he]
    cases summary <;> simp [shows, summaryOf]

/-- Every leaf but a summary has a row beneath it. -/
theorem exists_row_of_mem_leaves (ha : Arranges c summary dims rows h) {leaf : Header}
    (hl : leaf ∈ h.leaves) (hs : leaf.isSummary = false) :
    ∃ r ∈ rows, leaf.shows (h.path.headers ++ r.headers dims) = true := by
  induction ha with
  | leaf hrows hsummary hchildren =>
    rw [leaves_of_children_eq_nil hchildren] at hl
    obtain rfl := List.mem_singleton.mp hl
    obtain ⟨r, hr⟩ := List.exists_mem_of_ne_nil _ hrows
    exact ⟨r, hr, by simp [shows, hs, isPrefixOf_append]⟩
  | level hrows _ hchildren hpath harranges ih =>
    rcases (mem_leaves_of_level hrows hchildren).mp hl with ⟨v, hv, hl⟩ | ⟨-, rfl⟩
    · obtain ⟨r, hr, hshows⟩ := ih v hv hl
      obtain ⟨hr, he⟩ := List.mem_filter.mp hr
      refine ⟨r, hr, ?_⟩
      rw [Row.headers, List.map_cons,
        (harranges v hv).shows_cons (v := v) (by simp [hpath]) hl, BEq.symm he]
      exact hshows
    · simp [summaryOf] at hs

/-- What holds of paths that part at a level, the lesser value first, and of a path and that of a
summary above it, holds of any two leaves. -/
theorem pairwise_leaves {R : List HeaderValue → List HeaderValue → Prop}
    (ha : Arranges c summary dims rows h)
    (hparts : ∀ p v w us vs, HeaderValue.cmp v w = .lt → R (p ++ v :: us) (p ++ w :: vs))
    (hsummary : summary = true → ∀ p v us, R (p ++ v :: us) p) :
    h.leaves.Pairwise fun a b => R a.path.headers b.path.headers := by
  induction ha with
  | leaf hrows _ hchildren =>
    rw [leaves_of_children_eq_nil hchildren]
    exact List.pairwise_singleton ..
  | @level key dims rows h child hrows _ hchildren hpath harranges ih =>
    have hleaf : ∀ v ∈ HeaderValue.ascending (rows.map (·.header key)),
        ∀ leaf ∈ (child v).leaves, ∃ vs, leaf.path.headers = h.path.headers ++ v :: vs := by
      intro v hv leaf hl
      obtain ⟨vs, hvs⟩ := (harranges v hv).exists_headers_eq hl
      exact ⟨vs, by simp [hvs, hpath]⟩
    rw [leaves_of_level hrows hchildren, List.pairwise_append, List.pairwise_flatMap]
    refine ⟨⟨ih, ?_⟩, by cases summary <;> simp, ?_⟩
    · refine (HeaderValue.isAscending_ascending _).imp_of_mem fun {v w} hv hw hlt a ha b hb => ?_
      obtain ⟨us, hus⟩ := hleaf v hv a ha
      obtain ⟨vs, hvs⟩ := hleaf w hw b hb
      rw [hus, hvs]
      exact hparts _ _ _ _ _ hlt
    · intro a ha b hb
      obtain ⟨v, hv, ha⟩ := List.mem_flatMap.mp ha
      obtain ⟨vs, hvs⟩ := hleaf v hv a ha
      cases summary with
      | false => simp at hb
      | true =>
        obtain rfl := List.mem_singleton.mp hb
        rw [hvs]
        exact hsummary rfl _ _ _

/-- No two leaves have the same path, the summaries included. -/
theorem pairwise_headers (ha : Arranges c summary dims rows h) :
    h.leaves.Pairwise fun a b => (a.path.headers == b.path.headers) = false := by
  refine ha.pairwise_leaves (R := fun us vs => (us == vs) = false)
    (fun p v w us vs hlt => ?_) fun _ p v us => ?_
  · rw [append_beq_append rfl, List.cons_beq_cons, HeaderValue.beq_eq_false_of_cmp_eq_lt hlt,
      Bool.false_and, Bool.and_false]
  · rw [← List.append_nil p, List.append_assoc, append_beq_append rfl]
    exact Bool.and_false _

theorem isSummary_of_mem_leaves (ha : Arranges c false dims rows h) {leaf : Header}
    (hl : leaf ∈ h.leaves) : leaf.isSummary = false := by
  induction ha with
  | leaf hrows hsummary hchildren =>
    rw [leaves_of_children_eq_nil hchildren] at hl
    obtain rfl := List.mem_singleton.mp hl
    exact hsummary
  | level hrows _ hchildren hpath harranges ih =>
    rcases (mem_leaves_of_level hrows hchildren).mp hl with ⟨v, hv, hl⟩ | ⟨hs, -⟩
    · exact ih v hv hl
    · contradiction

theorem contains_of_isCollapsed (ha : Arranges c summary dims rows h) {leaf : Header}
    (hl : leaf ∈ h.leaves) (hcollapsed : leaf.isCollapsed = true) :
    c.contains leaf.path = true := by
  induction ha with
  | leaf hrows hsummary hchildren hend =>
    rw [leaves_of_children_eq_nil hchildren] at hl
    obtain rfl := List.mem_singleton.mp hl
    simp_all
  | level hrows _ hchildren hpath harranges ih =>
    rcases (mem_leaves_of_level hrows hchildren).mp hl with ⟨v, hv, hl⟩ | ⟨-, rfl⟩
    · exact ih v hv hl
    · simp [summaryOf] at hcollapsed

/-- Without summaries and collapsed headers every leaf has a value for each dimension. -/
theorem keys_of_mem_leaves (ha : Arranges c false dims rows h)
    (hopen : ∀ leaf ∈ h.leaves, leaf.isCollapsed = false) {leaf : Header} (hl : leaf ∈ h.leaves) :
    leaf.path.keys = h.path.keys ++ dims := by
  induction ha with
  | leaf hrows hsummary hchildren hend =>
    rw [leaves_of_children_eq_nil hchildren] at hl hopen
    obtain rfl := List.mem_singleton.mp hl
    simp_all
  | @level key dims rows h child hrows _ hchildren hpath harranges ih =>
    rcases (mem_leaves_of_level hrows hchildren).mp hl with ⟨v, hv, hl⟩ | ⟨hs, -⟩
    · have hbelow : ∀ leaf ∈ (child v).leaves, leaf.isCollapsed = false := fun leaf hm =>
        hopen leaf ((mem_leaves_of_level hrows hchildren).mpr (.inl ⟨v, hv, hm⟩))
      have hk := ih v hv hbelow hl
      simpa [hpath] using hk
    · contradiction

/-- Without summaries the leaves stand in ascending order. -/
theorem pairwise_compareLex (ha : Arranges c false dims rows h) :
    h.leaves.Pairwise fun a b =>
      List.compareLex HeaderValue.cmp a.path.headers b.path.headers = .lt := by
  refine ha.pairwise_leaves (R := fun us vs => List.compareLex HeaderValue.cmp us vs = .lt)
    (fun p v w us vs hlt => ?_) fun hs => by contradiction
  induction p with
  | nil => simp [List.compareLex_cons_cons, hlt]
  | cons u p ih => simpa [List.compareLex_cons_cons, Std.ReflCmp.compare_self] using ih

end Arranges

/-- What the leaves of an axis stand for: each row is beneath just one of those that are no
summaries, these have rows, and no two leaves have the same path. -/
structure ShowOnce (leaves : List Header) (dims : List String) (rows : List Row) : Prop where
  once : ∀ r ∈ rows, leaves.countP (·.shows (r.headers dims)) = 1
  inhabited : ∀ leaf ∈ leaves, leaf.isSummary = false →
    ∃ r ∈ rows, leaf.path.headers.isPrefixOf (r.headers dims) = true
  distinct : leaves.Pairwise fun a b => (a.path.headers == b.path.headers) = false

/-- Leaves show one list of rows as they show another one that has the same values. -/
theorem ShowOnce.congr {leaves : List Header} {rows data : List Row}
    (h : ShowOnce leaves dims rows)
    (hrow : ∀ d ∈ data, ∃ r ∈ rows, (r.headers dims == d.headers dims) = true)
    (hdata : ∀ r ∈ rows, ∃ d ∈ data, (r.headers dims == d.headers dims) = true) :
    ShowOnce leaves dims data := by
  constructor
  · intro d hd
    obtain ⟨r, hr, heq⟩ := hrow d hd
    have hshows : ∀ leaf ∈ leaves,
        leaf.shows (d.headers dims) = true ↔ leaf.shows (r.headers dims) = true := by
      intro leaf _
      rw [shows, shows, isPrefixOf_congr heq]
    rw [List.countP_congr hshows]
    exact h.once r hr
  · intro leaf hl hs
    obtain ⟨r, hr, hbegins⟩ := h.inhabited leaf hl hs
    obtain ⟨d, hd, heq⟩ := hdata r hr
    rw [isPrefixOf_congr heq] at hbegins
    exact ⟨d, hd, hbegins⟩
  · exact h.distinct

/-- The paths of the leaves are the values of the rows, in ascending order. -/
structure ShowAll (leaves : List Header) (dims : List String) (rows : List Row) : Prop where
  exists_iff : ∀ vs : List HeaderValue,
    (∃ leaf ∈ leaves, (leaf.path.headers == vs) = true) ↔
      ∃ r ∈ rows, (r.headers dims == vs) = true
  ascending : leaves.Pairwise fun a b =>
    List.compareLex HeaderValue.cmp a.path.headers b.path.headers = .lt

theorem showOnce_ofRows (c : Collapsed) (summary : Bool) (dims : List String) (hrows : rows ≠ []) :
    ShowOnce (ofRows c summary dims rows).leaves dims rows := by
  have ha := arranges_ofRows c summary dims hrows
  constructor
  · intro r hr
    exact ha.countP_leaves hr
  · intro leaf hl hs
    obtain ⟨r, hr, hshows⟩ := ha.exists_row_of_mem_leaves hl hs
    rw [shows, Bool.and_eq_true] at hshows
    exact ⟨r, hr, hshows.2⟩
  · exact ha.pairwise_headers

theorem showAll_ofRows (c : Collapsed) (dims : List String) (hrows : rows ≠ [])
    (hopen : ∀ leaf ∈ (ofRows c false dims rows).leaves, leaf.isCollapsed = false) :
    ShowAll (ofRows c false dims rows).leaves dims rows := by
  have ha := arranges_ofRows c false dims hrows
  have hbeq : ∀ leaf ∈ (ofRows c false dims rows).leaves, ∀ r : Row,
      leaf.shows (r.headers dims) = true → (leaf.path.headers == r.headers dims) = true := by
    intro leaf hl r hshows
    have hkeys : leaf.path.keys = dims := by simpa [ofRows] using ha.keys_of_mem_leaves hopen hl
    have hlength : leaf.path.headers.length = (r.headers dims).length := by
      rw [Path.length_headers, Row.length_headers, hkeys]
    rw [shows, Bool.and_eq_true] at hshows
    rw [← isPrefixOf_append hlength, List.append_nil]
    exact hshows.2
  refine ⟨fun vs => ⟨?_, ?_⟩, ha.pairwise_compareLex⟩
  · rintro ⟨leaf, hl, hv⟩
    obtain ⟨r, hr, hshows⟩ := ha.exists_row_of_mem_leaves hl (ha.isSummary_of_mem_leaves hl)
    exact ⟨r, hr, BEq.trans (BEq.symm (hbeq leaf hl r hshows)) hv⟩
  · rintro ⟨r, hr, hv⟩
    have hcount := ha.countP_leaves hr
    obtain ⟨leaf, hl, hshows⟩ := List.countP_pos_iff.mp (Nat.lt_of_lt_of_eq Nat.one_pos hcount.symm)
    exact ⟨leaf, hl, BEq.trans (hbeq leaf hl r hshows) hv⟩

theorem isCollapsed_of_mem_leaves_empty {summary : Bool} {dims : List String} (hrows : rows ≠ [])
    {leaf : Header} (hl : leaf ∈ (ofRows .empty summary dims rows).leaves) :
    leaf.isCollapsed = false := by
  cases hcollapsed : leaf.isCollapsed with
  | false => rfl
  | true =>
    have hc := (arranges_ofRows .empty summary dims hrows).contains_of_isCollapsed hl hcollapsed
    simp [Collapsed.contains, Collapsed.empty] at hc

/-- Readings with a place or without, among them a NaN and both zeros. -/
def readings : List Row :=
  [[("place", .text "hall"), ("reading", .number (.nan false))],
    [("reading", .number (.zero false))],
    [("place", .text "hall"), ("reading", .number (.zero false))],
    [("place", .text "hall"), ("reading", .number (.zero true))],
    [("place", .text "hall"), ("reading", .number (.nan true))]]

/-- The readings without a place are collapsed. -/
def placeless : Collapsed := .ofEntries [("placeless", [⟨"place", .null⟩])]

/-- Every row is shown once by an axis, whatever is collapsed and whether or not there are
summaries. If no leaf is collapsed and there are no summaries, the leaves are just the values of
the rows. -/
theorem leaves_show_rows (c : Collapsed) (summary : Bool) (dims : List String) (rows : List Row)
    (hrows : rows ≠ []) :
    ShowOnce (ofRows c summary dims rows).leaves dims rows ∧
      (summary = false →
        (∀ leaf ∈ (ofRows c summary dims rows).leaves, leaf.isCollapsed = false) →
          ShowAll (ofRows c summary dims rows).leaves dims rows) := by
  refine ⟨showOnce_ofRows c summary dims hrows, ?_⟩
  rintro rfl hopen
  exact showAll_ofRows c dims hrows hopen

theorem leaves_show_readings :
    readings ≠ [] ∧
      ShowOnce (ofRows placeless true ["place", "reading"] readings).leaves ["place", "reading"]
        readings ∧
      ShowAll (ofRows .empty false ["place", "reading"] readings).leaves ["place", "reading"]
        readings := by
  have hrows : readings ≠ [] := by simp [readings]
  have hopen := leaves_show_rows .empty false ["place", "reading"] readings hrows
  exact ⟨hrows, (leaves_show_rows placeless true ["place", "reading"] readings hrows).1,
    hopen.2 rfl fun _ => isCollapsed_of_mem_leaves_empty hrows⟩

example : ((ofRows placeless true ["place", "reading"] readings).leaves.map Header.path) =
    [[⟨"place", .null⟩], [⟨"place", .text "hall"⟩, ⟨"reading", .number (.zero false)⟩],
      [⟨"place", .text "hall"⟩, ⟨"reading", .number (.nan false)⟩], [⟨"place", .text "hall"⟩],
      []] := by decide

end Header

end ChartQuery
