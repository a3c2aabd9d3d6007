import ChartQuery.Proofs.Pivot.Leaves

namespace ChartQuery

namespace Literal

def isNaN : Literal → Bool
  | number x => x.isNaN
  | _ => false

theorem eqv_self (a : Literal) : a.eqv a = !a.isNaN := by
  cases a <;> simp [eqv, isNaN, Binary64.numEq]

theorem eqv_comm (a b : Literal) : a.eqv b = b.eqv a := by
  cases a <;> cases b <;> simp [eqv, BEq.comm]

theorem eqv_eq_false_of_isNaN {a : Literal} (h : a.isNaN = true) (b : Literal) :
    a.eqv b = false := by
  cases a with
  | number x => cases b <;> simp_all [eqv, isNaN, Binary64.numEq]
  | _ => contradiction

end Literal

namespace Path

/-- A segment of the path leads to a NaN. -/
def hasNaN (path : Path) : Bool := path.any (·.value.isNaN)

theorem eqv_self (path : Path) : eqv path path = !path.hasNaN := by
  induction path with
  | nil => rfl
  | cons s path ih => simp [eqv, Segment.eqv, Literal.eqv_self, ih, hasNaN]

theorem eqv_comm (p q : Path) : eqv p q = eqv q p := by
  induction p generalizing q with
  | nil => cases q <;> rfl
  | cons s p ih =>
    cases q with
    | nil => rfl
    | cons t q => rw [eqv, eqv, ih, Segment.eqv, Segment.eqv, Literal.eqv_comm, BEq.comm]

theorem eqv_eq_false_of_hasNaN {p : Path} (h : p.hasNaN = true) (q : Path) :
    eqv p q = false := by
  induction p generalizing q with
  | nil => contradiction
  | cons s p ih =>
    cases q with
    | nil => rfl
    | cons t q =>
      rcases Bool.or_eq_true_iff.mp h with hs | hp
      · rw [eqv, Segment.eqv, Literal.eqv_eq_false_of_isNaN hs, Bool.and_false, Bool.false_and]
      · rw [eqv, ih hp, Bool.and_false]

theorem eqv_eq_false_of_length {p q : Path} (h : q.length < p.length) : eqv p q = false := by
  cases he : eqv p q with
  | false => rfl
  | true =>
    have hl := congrArg List.length (keys_eq_of_eqv he)
    simp only [keys, List.length_map] at hl
    omega

end Path

namespace Collapsed

/-- One more collapsed header. -/
def add (c : Collapsed) (id : String) (path : Path) : Collapsed := ⟨c.entries ++ [(id, path)]⟩

@[simp] theorem contains_add (c : Collapsed) (id : String) (p q : Path) :
    (c.add id p).contains q = (c.contains q || Path.eqv p q) := by
  simp [contains, add]

/-- Collecting the entries anew adds one with an id of its own. -/
theorem ofEntries_append {entries : List (String × Path)} {id : String}
    (h : ∀ e ∈ entries, e.1 ≠ id) (path : Path) :
    ofEntries (entries ++ [(id, path)]) = (ofEntries entries).add id path := by
  have hfresh : (entries.any fun e => id == e.1) = false := by
    simpa using fun i q he => Ne.symm (h (i, q) he)
  simp [ofEntries, add, distinctBy_append, distinctBy, hfresh]

end Collapsed

namespace Header

/-- The header at a position, which is the list of the places of the headers that lead to it, each
among its siblings. -/
def at? (h : Header) : List Nat → Option Header
  | [] => some h
  | i :: position => h.children[i]?.bind fun child => child.at? position

theorem at?_cons_eq_some_iff {h n : Header} {i : Nat} {position : List Nat} :
    h.at? (i :: position) = some n ↔
      ∃ child, h.children[i]? = some child ∧ child.at? position = some n := by
  simp [at?, Option.bind_eq_some_iff]

/-- The header without what is beneath it. -/
def closed (h : Header) : Header := { h with children := [], isCollapsed := true }

mutual

/-- The headers of a path collapsed, except for summaries. -/
def collapse (path : Path) : Header → Header
  | ⟨key, value, here, depth, children, collapsed, summary⟩ =>
    if !summary && Path.eqv path here then ⟨key, value, here, depth, [], true, summary⟩
    else ⟨key, value, here, depth, collapseIn path children, collapsed, summary⟩

def collapseIn (path : Path) : List Header → List Header
  | [] => []
  | h :: headers => collapse path h :: collapseIn path headers

end

def collapseBeneath (path : Path) (h : Header) : Header :=
  { h with children := collapseIn path h.children }

theorem collapseIn_eq_map (path : Path) (hs : List Header) :
    collapseIn path hs = hs.map (collapse path) := by
  induction hs with
  | nil => rfl
  | cons h hs ih => rw [collapseIn, ih, List.map_cons]

theorem collapse_of_eqv {path : Path} {h : Header} (hs : h.isSummary = false)
    (he : Path.eqv path h.path = true) : h.collapse path = h.closed := by
  obtain ⟨key, value, here, depth, children, collapsed, summary⟩ := h
  simp_all [collapse, closed]

theorem collapse_of_not_eqv {path : Path} {h : Header} (he : Path.eqv path h.path = false) :
    h.collapse path = h.collapseBeneath path := by
  obtain ⟨key, value, here, depth, children, collapsed, summary⟩ := h
  simp_all [collapse, collapseBeneath]

theorem getElem?_collapseBeneath {path : Path} {h child : Header} {i : Nat}
    (hc : h.children[i]? = some child) :
    (h.collapseBeneath path).children[i]? = some (child.collapse path) := by
  simp [collapseBeneath, collapseIn_eq_map, hc]

@[simp] theorem collapse_summaryOf (p q : Path) : (summaryOf q).collapse p = summaryOf q := by
  simp [summaryOf, collapse, collapseIn]

theorem collapseIn_withSummary (summary : Bool) (p q : Path) (hs : List Header) :
    collapseIn p (withSummary summary q hs) = withSummary summary q (collapseIn p hs) := by
  simp only [collapseIn_eq_map, withSummary, List.isEmpty_map]
  split
  · simp
  · rfl

section

variable (c : Collapsed) (summary : Bool) (id : String) (p : Path)

theorem beneath_add (dims : List String) (path : Path) (rows : List Row) :
    beneath (c.add id p) summary dims path rows =
      collapseIn p (beneath c summary dims path rows) := by
  induction dims generalizing path rows with
  | nil => rfl
  | cons key dims ih =>
    rw [beneath_cons, beneath_cons, collapseIn_eq_map, List.map_map]
    refine List.map_congr_left fun v _ => ?_
    rw [Function.comp_apply]
    cases he : Path.eqv p (path ++ [⟨key, v.toLiteral⟩]) with
    | true =>
      rw [collapse_of_eqv rfl he]
      simp [ofValue, closed, he]
    | false =>
      rw [collapse_of_not_eqv he]
      cases hc : c.contains (path ++ [⟨key, v.toLiteral⟩]) <;>
        simp [ofValue, collapseBeneath, he, hc, ih, collapseIn_withSummary, collapseIn]

/-- One more collapsed path collapses the headers beneath the root that have this path. -/
theorem ofRows_add (dims : List String) (rows : List Row) :
    ofRows (c.add id p) summary dims rows = (ofRows c summary dims rows).collapseBeneath p := by
  rw [ofRows, ofRows, collapseBeneath, beneath_add, collapseIn_withSummary]

end

mutual

theorem collapse_of_hasNaN {path : Path} (hp : path.hasNaN = true) :
    (h : Header) → h.collapse path = h
  | ⟨key, value, here, depth, children, collapsed, summary⟩ => by
    rw [collapse_of_not_eqv (Path.eqv_eq_false_of_hasNaN hp _), collapseBeneath,
      collapseIn_of_hasNaN hp children]

theorem collapseIn_of_hasNaN {path : Path} (hp : path.hasNaN = true) :
    (hs : List Header) → collapseIn path hs = hs
  | [] => rfl
  | h :: hs => by rw [collapseIn, collapse_of_hasNaN hp h, collapseIn_of_hasNaN hp hs]

end

/-- The header at a position is collapsed, and nothing is beneath it. -/
def isCollapsedAt (h : Header) (position : List Nat) : Bool :=
  (h.at? position).any fun n => n.isCollapsed && n.isLeaf

variable {c : Collapsed} {summary : Bool} {dims : List String} {rows : List Row} {h n : Header}
  {position : List Nat}

namespace Arranges

/-- A header beneath another is a summary, or it arranges some of the rows one step further. -/
theorem of_mem_children (ha : Arranges c summary dims rows h) {child : Header}
    (hc : child ∈ h.children) :
    child = summaryOf h.path ∨ child.path.length = h.path.length + 1 ∧
      ∃ dims rows, Arranges c summary dims rows child := by
  cases ha with
  | leaf hrows hsummary hchildren =>
    rw [hchildren] at hc
    contradiction
  | level hrows _ hchildren hpath harranges =>
    rw [hchildren] at hc
    rcases mem_withSummary hc with hc | ⟨-, rfl⟩
    · obtain ⟨v, hv, rfl⟩ := List.mem_map.mp hc
      exact .inr ⟨by simp [hpath], _, _, harranges v hv⟩
    · exact .inl rfl

/-- A step down from a header ends at its summary, or it leads to a header that arranges rows. -/
theorem step (ha : Arranges c summary dims rows h) {i : Nat}
    (hn : h.at? (i :: position) = some n) :
    position = [] ∧ n = summaryOf h.path ∨
      ∃ child dims rows, h.children[i]? = some child ∧ child.at? position = some n ∧
        child.path.length = h.path.length + 1 ∧ Arranges c summary dims rows child := by
  obtain ⟨child, hc, hn⟩ := at?_cons_eq_some_iff.mp hn
  rcases ha.of_mem_children (List.mem_of_getElem? hc) with rfl | ⟨hlength, dims, rows, hchild⟩
  · cases position with
    | nil => exact .inl ⟨rfl, (Option.some.inj hn).symm⟩
    | cons j position => simp [at?, summaryOf] at hn
  · exact .inr ⟨child, dims, rows, hc, hn, hlength, hchild⟩

/-- The path of a header that is no summary has a segment for each step to it. -/
theorem length_path_of_at? (ha : Arranges c summary dims rows h) (hn : h.at? position = some n)
    (hsummary : n.isSummary = false) : n.path.length = h.path.length + position.length := by
  induction position generalizing h dims rows with
  | nil =>
    obtain rfl := Option.some.inj hn
    rfl
  | cons i position ih =>
    rcases ha.step hn with ⟨-, rfl⟩ | ⟨child, dims, rows, -, hn, hlength, hchild⟩
    · contradiction
    · rw [ih hchild hn, hlength, List.length_cons]
      omega

/-- Only headers with a collapsed path are collapsed. -/
theorem contains_of_at? (ha : Arranges c summary dims rows h) (hn : h.at? position = some n)
    (hcollapsed : n.isCollapsed = true) : c.contains n.path = true := by
  induction position generalizing h dims rows with
  | nil =>
    obtain rfl := Option.some.inj hn
    cases ha with
    | leaf hrows hsummary hchildren hend => simp_all
    | level hrows hopen =>
      rw [hopen] at hcollapsed
      contradiction
  | cons i position ih =>
    rcases ha.step hn with ⟨-, rfl⟩ | ⟨child, dims, rows, -, hn, -, hchild⟩
    · contradiction
    · exact ih hchild hn

/-- If the path is longer than those of the headers above a position, these stay open, and what
was at the position is still there. -/
theorem at?_collapseBeneath (ha : Arranges c summary dims rows h) {path : Path} {i : Nat}
    (hn : h.at? (i :: position) = some n)
    (hlength : h.path.length + position.length < path.length) :
    (h.collapseBeneath path).at? (i :: position) = some (n.collapse path) := by
  induction position generalizing h dims rows i with
  | nil =>
    obtain ⟨child, hc, hn⟩ := at?_cons_eq_some_iff.mp hn
    obtain rfl := Option.some.inj hn
    exact at?_cons_eq_some_iff.mpr ⟨_, getElem?_collapseBeneath hc, rfl⟩
  | cons j position ih =>
    rcases ha.step hn with ⟨hend, -⟩ | ⟨child, dims, rows, hc, hn, hstep, hchild⟩
    · contradiction
    · -- The child is above the position, so its path is too short to be the collapsed one.
      have hbelow : child.path.length + position.length < path.length := by
        simp only [List.length_cons] at hlength
        omega
      have hne : Path.eqv path child.path = false := Path.eqv_eq_false_of_length (by omega)
      refine at?_cons_eq_some_iff.mpr ⟨_, getElem?_collapseBeneath hc, ?_⟩
      rw [collapse_of_not_eqv hne]
      exact ih hchild hn hbelow

end Arranges

theorem arranges_of_at? (hn : (ofRows c summary dims rows).at? position = some n)
    (hposition : position ≠ []) :
    Arranges c summary dims rows (ofRows c summary dims rows) := by
  refine arranges_ofRows c summary dims ?_
  rintro rfl
  obtain ⟨i, position, rfl⟩ := List.exists_cons_of_ne_nil hposition
  cases dims <;> simp [at?, ofRows, beneath, withSummary, HeaderValue.ascending] at hn

theorem at?_ofRows_add (id : String) (hn : (ofRows c summary dims rows).at? position = some n)
    (hposition : position ≠ []) (hsummary : n.isSummary = false) :
    (ofRows (c.add id n.path) summary dims rows).at? position = some (n.collapse n.path) := by
  have ha := arranges_of_at? hn hposition
  have hlength := ha.length_path_of_at? hn hsummary
  obtain ⟨i, position, rfl⟩ := List.exists_cons_of_ne_nil hposition
  rw [ofRows_add]
  exact ha.at?_collapseBeneath hn (by rw [hlength, List.length_cons]; omega)

theorem ofRows_add_of_hasNaN (id : String) {path : Path} (hp : path.hasNaN = true) :
    ofRows (c.add id path) summary dims rows = ofRows c summary dims rows := by
  rw [ofRows_add]
  exact congrArg (fun hs => { ofRows c summary dims rows with children := hs })
    (collapseIn_of_hasNaN hp _)

theorem isCollapsed_of_hasNaN (hn : (ofRows c summary dims rows).at? position = some n)
    (hposition : position ≠ []) (hp : n.path.hasNaN = true) : n.isCollapsed = false := by
  cases hcollapsed : n.isCollapsed with
  | false => rfl
  | true =>
    have hc := (arranges_of_at? hn hposition).contains_of_at? hn hcollapsed
    obtain ⟨e, -, he⟩ := List.any_eq_true.mp hc
    rw [Path.eqv_comm, Path.eqv_eq_false_of_hasNaN hp] at he
    contradiction

end Header

/-- The two axes of a table. -/
inductive Axis where
  | rows
  | columns

def Table.tree (t : Table) : Axis → Header
  | .rows => t.rowTree
  | .columns => t.columnTree

namespace Pivot

def dims (p : Pivot) : Axis → List String
  | .rows => p.rows
  | .columns => p.columns

theorem tree_table (p : Pivot) (c : Collapsed) (results : Results) (axis : Axis) :
    (p.table c results).tree axis =
      .ofRows c p.options.showSummary (p.dims axis) ((results.get? p.full).getD []) := by
  cases axis <;> rfl

theorem table_add_of_hasNaN (p : Pivot) (c : Collapsed) (results : Results) (id : String)
    {path : Path} (hp : path.hasNaN = true) :
    p.table (c.add id path) results = p.table c results := by
  simp only [table, Header.ofRows_add_of_hasNaN id hp]

/-- A header of a table can be collapsed, by the path that the table has for it, just if the path
has no NaN. Otherwise the table stays as it is. -/
theorem isCollapsedAt_table_add (p : Pivot) (c : Collapsed) (results : Results) (id : String)
    (axis : Axis) {position : List Nat} {n : Header}
    (hn : ((p.table c results).tree axis).at? position = some n) (hposition : position ≠ [])
    (hsummary : n.isSummary = false) :
    (((p.table (c.add id n.path) results).tree axis).isCollapsedAt position = true ↔
        n.path.hasNaN = false) ∧
      (n.path.hasNaN = false →
        ((p.table (c.add id n.path) results).tree axis).at? position = some n.closed) ∧
      (n.path.hasNaN = true → p.table (c.add id n.path) results = p.table c results) := by
  cases hp : n.path.hasNaN with
  | false =>
    have hself : Path.eqv n.path n.path = true := by rw [Path.eqv_self, hp, Bool.not_false]
    have hat : ((p.table (c.add id n.path) results).tree axis).at? position = some n.closed := by
      rw [tree_table] at hn ⊢
      rw [Header.at?_ofRows_add id hn hposition hsummary, Header.collapse_of_eqv hsummary hself]
    refine ⟨?_, fun _ => hat, fun h => ?_⟩
    · simp [Header.isCollapsedAt, hat, Header.closed, Header.isLeaf]
    · contradiction
  | true =>
    have hsame := p.table_add_of_hasNaN c results id hp
    have hopen : n.isCollapsed = false := by
      rw [tree_table] at hn
      exact Header.isCollapsed_of_hasNaN hn hposition hp
    refine ⟨?_, fun h => ?_, fun _ => hsame⟩
    · simp [hsame, Header.isCollapsedAt, hn, hopen]
    · contradiction

/-- The places of each reading, with summaries. -/
def readingPlaces : Pivot := ⟨["reading", "place"], [], [], ⟨true, false⟩⟩

def readingResults : Results := Results.empty.insert readingPlaces.full Header.readings

/-- The zero has two places and a summary beneath it, which are hidden. -/
theorem isCollapsedAt_zero :
    ∃ n, ((readingPlaces.table .empty readingResults).tree .rows).at? [0] = some n ∧
      [0] ≠ [] ∧ n.isSummary = false ∧ n.children.length = 3 ∧
      ((readingPlaces.table (Collapsed.empty.add "zero" n.path) readingResults).tree
        .rows).isCollapsedAt [0] = true := by
  refine ⟨_, rfl, by simp, rfl, rfl, ?_⟩
  have hiff := isCollapsedAt_table_add readingPlaces .empty readingResults "zero" .rows
    (by rfl) (List.cons_ne_nil 0 []) (by rfl)
  exact hiff.1.mpr rfl

/-- The NaN stays open. -/
theorem not_isCollapsedAt_nan :
    ∃ n, ((readingPlaces.table .empty readingResults).tree .rows).at? [1] = some n ∧
      n.isSummary = false ∧ n.children.length = 2 ∧
      ((readingPlaces.table (Collapsed.empty.add "nan" n.path) readingResults).tree
        .rows).isCollapsedAt [1] = false :=
  ⟨_, rfl, rfl, rfl, rfl⟩

end Pivot

end ChartQuery
