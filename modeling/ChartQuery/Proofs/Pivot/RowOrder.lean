import ChartQuery.Proofs.Pivot.Cells
import ChartQuery.Proofs.Pivot.HeaderOrder
import Mathlib.Data.List.Find

namespace ChartQuery

theorem map_eq_of_forall₂ {α β γ : Type} {R : α → β → Prop} {f : α → γ} {g : β → γ} {xs : List α}
    {ys : List β} (h : List.Forall₂ R xs ys) (hfg : ∀ x y, R x y → f x = g y) :
    xs.map f = ys.map g := by
  rw [← List.forall₂_eq_eq_eq]
  exact List.rel_map (fun _ _ hxy => hfg _ _ hxy) h

theorem Binary64.numEq_congr {x y : Binary64} (h : x.same y = true) (z : Binary64) :
    z.numEq x = z.numEq y := by
  unfold same numEq at *
  cases hx : x.isNaN <;> cases hy : y.isNaN <;> simp_all

/-- A literal that is equal to one of two with the same header value is equal to the other. -/
theorem Literal.eqv_congr {a b : Literal}
    (h : (HeaderValue.ofLiteral a == HeaderValue.ofLiteral b) = true) (x : Literal) :
    x.eqv a = x.eqv b := by
  cases a <;> cases b <;>
    simp only [HeaderValue.ofLiteral, HeaderValue.beq_def, HeaderValue.eqv, beq_iff_eq,
      Bool.false_eq_true] at h
  case null.null => rfl
  case bool.bool => rw [h]
  case text.text => rw [h]
  case number.number y z =>
    cases x with
    | number x => exact Binary64.numEq_congr h x
    | _ => rfl

namespace Path

/-- Paths along the same dimensions to the same values. -/
structure Same (p q : Path) : Prop where
  keys : p.keys = q.keys
  headers : (p.headers == q.headers) = true

namespace Same

variable {p q : Path}

theorem length (h : p.Same q) : p.length = q.length := by
  simpa [Path.keys] using congrArg List.length h.keys

theorem headers_length (h : p.Same q) : p.headers.length = q.headers.length := by
  rw [length_headers, length_headers, h.keys]

theorem step (h : p.Same q) (key : String) {v w : HeaderValue} (hv : (v == w) = true) :
    Same (p ++ [⟨key, v.toLiteral⟩]) (q ++ [⟨key, w.toLiteral⟩]) := by
  constructor
  · rw [keys_append, keys_append, h.keys]
    rfl
  · rw [headers_append, headers_append, append_beq_append h.headers_length, h.headers]
    simpa using hv

/-- Whether a path is collapsed depends on its values only. -/
theorem eqv_congr (h : p.Same q) (e : Path) : Path.eqv e p = Path.eqv e q := by
  induction p generalizing q e with
  | nil =>
    obtain rfl : q = [] := List.eq_nil_of_length_eq_zero h.length.symm
    rfl
  | cons a p ih =>
    cases q with
    | nil => cases h.length
    | cons b q =>
      obtain ⟨hkey, hkeys⟩ := List.cons.inj h.keys
      obtain ⟨hvalue, hheaders⟩ := Bool.and_eq_true_iff.mp h.headers
      cases e with
      | nil => rfl
      | cons s e =>
        rw [Path.eqv, Path.eqv, ih ⟨hkeys, hheaders⟩, Segment.eqv, Segment.eqv, hkey,
          Literal.eqv_congr hvalue]

theorem contains (h : p.Same q) (c : Collapsed) : c.contains p = c.contains q := by
  simp only [Collapsed.contains, h.eqv_congr]

end Same

end Path

namespace Header

/-- Trees that differ at most in how the values of their headers are written. -/
inductive Same : Header → Header → Prop where
  | mk {key : String} {v w : Literal} {p q : Path} {depth : Nat} {hs ks : List Header}
    {collapsed summary : Bool}
    (value : (HeaderValue.ofLiteral v == HeaderValue.ofLiteral w) = true) (path : p.Same q)
    (children : List.Forall₂ Same hs ks) :
    Same ⟨key, v, p, depth, hs, collapsed, summary⟩ ⟨key, w, q, depth, ks, collapsed, summary⟩

theorem Same.path_same {h k : Header} (hs : h.Same k) : h.path.Same k.path := by
  cases hs with
  | mk _ path _ => exact path

theorem same_summaryOf {p q : Path} (hp : p.Same q) : (summaryOf p).Same (summaryOf q) := by
  rw [summaryOf, summaryOf, hp.length]
  exact .mk BEq.rfl hp .nil

theorem forall₂_withSummary (summary : Bool) {p q : Path} (hp : p.Same q) {hs ks : List Header}
    (h : List.Forall₂ Same hs ks) :
    List.Forall₂ Same (withSummary summary p hs) (withSummary summary q ks) := by
  cases h with
  | nil => simp [withSummary]
  | cons hc hcs =>
    cases summary with
    | false => exact .cons hc hcs
    | true => exact List.rel_append (.cons hc hcs) (.cons (same_summaryOf hp) .nil)

theorem forall₂_beneath (c : Collapsed) (summary : Bool) {dims : List String} {p q : Path}
    {rows rows' : List Row} (hp : p.Same q) (hrows : rows.Perm rows') :
    List.Forall₂ Same (beneath c summary dims p rows) (beneath c summary dims q rows') := by
  induction dims generalizing p q rows rows' with
  | nil => exact .nil
  | cons key dims ih =>
    rw [beneath_cons, beneath_cons, List.forall₂_map_left_iff, List.forall₂_map_right_iff]
    refine (HeaderValue.forall₂_ascending_of_perm (hrows.map _)).imp fun v w hvw => ?_
    have hhere := hp.step key hvw
    -- Which of two equal values names the header does not change who is beneath it.
    have hmembers : (rows.filter fun r => r.header key == v).Perm
        (rows'.filter fun r => r.header key == w) := by
      simp only [BEq.congr_right hvw]
      exact hrows.filter _
    rw [ofValue, ofValue, hhere.length, hhere.contains]
    refine .mk (by simpa using hvw) hhere ?_
    split
    · exact .nil
    · exact forall₂_withSummary summary hhere (ih hhere hmembers)

theorem ofRows_same (c : Collapsed) (summary : Bool) (dims : List String) {rows rows' : List Row}
    (hrows : rows.Perm rows') :
    (ofRows c summary dims rows).Same (ofRows c summary dims rows') :=
  have hroot : Path.Same [] [] := ⟨rfl, rfl⟩
  .mk BEq.rfl hroot (forall₂_withSummary summary hroot (forall₂_beneath c summary hroot hrows))

mutual

theorem Same.leaves : {h k : Header} → h.Same k → List.Forall₂ Same h.leaves k.leaves
  | ⟨_, _, _, _, [], _, _⟩, _, .mk value path .nil => .cons (.mk value path .nil) .nil
  | ⟨_, _, _, _, _ :: _, _, _⟩, _, .mk _ _ (.cons hc hcs) =>
    List.rel_append hc.leaves (forall₂_leavesIn hcs)

theorem forall₂_leavesIn : {hs ks : List Header} → List.Forall₂ Same hs ks →
    List.Forall₂ Same (leavesIn hs) (leavesIn ks)
  | [], _, .nil => .nil
  | _ :: _, _, .cons hc hcs => List.rel_append hc.leaves (forall₂_leavesIn hcs)

end

end Header

namespace Results

/-- The same rows for each grouping, maybe in another order. -/
def Perm (results results' : Results) : Prop :=
  ∀ g, Option.Rel List.Perm (results.get? g) (results'.get? g)

/-- No two rows of a grouping have the same values along its dimensions. -/
def IsUnique (results : Results) : Prop :=
  ∀ g rows, results.get? g = some rows →
    rows.Pairwise fun r s => (r.headers g.dimensions == s.headers g.dimensions) = false

variable {results results' : Results}

theorem Perm.get?_cases (h : results.Perm results') (g : Grouping) :
    results.get? g = none ∧ results'.get? g = none ∨
      ∃ rows rows', results.get? g = some rows ∧ results'.get? g = some rows' ∧
        rows.Perm rows' := by
  have hg := h g
  cases hr : results.get? g <;> cases hr' : results'.get? g <;> rw [hr, hr'] at hg <;> cases hg
  · exact .inl ⟨rfl, rfl⟩
  · exact .inr ⟨_, _, rfl, rfl, by assumption⟩

theorem Perm.getD (h : results.Perm results') (g : Grouping) :
    ((results.get? g).getD []).Perm ((results'.get? g).getD []) := by
  rcases h.get?_cases g with ⟨hr, hr'⟩ | ⟨rows, rows', hr, hr', hrows⟩
  · rw [hr, hr']
  · rwa [hr, hr']

theorem rowAt?_eq_of_perm (hperm : results.Perm results') (hunique : results.IsUnique)
    {row row' column column' : Path} (hrow : row.Same row') (hcolumn : column.Same column') :
    results.rowAt? row column = results'.rowAt? row' column' := by
  have hgrouping : Grouping.ofPaths row column = .ofPaths row' column' :=
    congrArg₂ Grouping.mk hrow.keys hcolumn.keys
  have hvalues : (row.headers ++ column.headers == row'.headers ++ column'.headers) = true := by
    rw [append_beq_append hrow.headers_length, hrow.headers, hcolumn.headers, Bool.true_and]
  rw [rowAt?, rowAt?, ← hgrouping, ← hrow.keys, ← hcolumn.keys]
  rcases hperm.get?_cases (.ofPaths row column) with ⟨hr, hr'⟩ | ⟨rows, rows', hr, hr', hrows⟩
  · rw [hr, hr']
    rfl
  · -- Only one row can be found, so it does not matter that the first one counts.
    have honly : {r ∈ rows | (r.headers (row.keys ++ column.keys) ==
        row.headers ++ column.headers) = true}.Subsingleton := by
      rintro r ⟨hmr, hvr⟩ s ⟨hms, hvs⟩
      exact Row.eq_of_headers_beq (hunique _ _ hr) hmr hms (BEq.trans hvr (BEq.symm hvs))
    rw [hr, hr', Option.bind_some, Option.bind_some, List.find?_eq_find?_of_perm hrows honly]
    simp only [BEq.congr_right hvalues]

/-- The rows of each grouping from the last to the first. -/
def reverse (results : Results) : Results :=
  { results with entries := ⟨results.entries.entries.map fun e => (e.1, e.2.reverse)⟩ }

theorem get?_reverse (results : Results) (g : Grouping) :
    results.reverse.get? g = (results.get? g).map List.reverse := by
  obtain ⟨groupings, ⟨entries⟩, failed⟩ := results
  induction entries with
  | nil => rfl
  | cons e entries ih =>
    obtain ⟨k, rows⟩ := e
    simp only [reverse, get?, Memo.get?, List.map_cons, List.lookup_cons] at ih ⊢
    cases g == k with
    | true => rfl
    | false => exact ih

theorem perm_reverse (results : Results) : results.Perm results.reverse := by
  intro g
  rw [get?_reverse]
  cases results.get? g with
  | none => exact .none
  | some rows => exact .some rows.reverse_perm.symm

theorem isUnique_of_forall_mem (h : ∀ e ∈ results.entries.entries,
    e.2.Pairwise fun r s => (r.headers e.1.dimensions == s.headers e.1.dimensions) = false) :
    results.IsUnique := by
  intro g rows hrows
  obtain ⟨before, after, he, -⟩ := List.lookup_eq_some_iff.mp hrows
  exact h (g, rows) (by simp [he])

end Results

/-- Tables with the same headers, which may be written differently, and the same cells. -/
structure Table.Same (t u : Table) : Prop where
  rowTree : t.rowTree.Same u.rowTree
  columnTree : t.columnTree.Same u.columnTree
  rowLeaves : List.Forall₂ Path.Same t.rowLeaves u.rowLeaves
  columnLeaves : List.Forall₂ Path.Same t.columnLeaves u.columnLeaves
  cells : t.cells = u.cells

namespace Pivot

theorem forall₂_leaves_path {h k : Header} (hs : h.Same k) :
    List.Forall₂ Path.Same (h.leaves.map Header.path) (k.leaves.map Header.path) := by
  rw [List.forall₂_map_left_iff, List.forall₂_map_right_iff]
  exact hs.leaves.imp fun _ _ h => h.path_same

theorem cells_eq_of_perm (p : Pivot) {results results' : Results} (hperm : results.Perm results')
    (hunique : results.IsUnique) {rows rows' columns columns' : List Path}
    (hrows : List.Forall₂ Path.Same rows rows')
    (hcolumns : List.Forall₂ Path.Same columns columns') :
    p.cells results rows columns = p.cells results' rows' columns' := by
  rw [cells_eq, cells_eq]
  refine map_eq_of_forall₂ hrows fun row row' hrow => ?_
  refine map_eq_of_forall₂ hcolumns fun column column' hcolumn => ?_
  rw [Results.rowAt?_eq_of_perm hperm hunique hrow hcolumn]

/-- Meters by place and reading. -/
def meters : Pivot := ⟨["place"], ["reading"], [.new "meter" "count"], ⟨true, true⟩⟩

def meterRow (meters : Int) (values : Row) : Row :=
  ("meter_count", .number (.ofInt meters)) :: values

/-- Some meters read a NaN, and some a zero of one sign or the other. -/
def meterCounts : Results :=
  let results := Results.empty.insert ⟨["place"], ["reading"]⟩ [
    meterRow 1 [("place", .text "hall"), ("reading", .number (.nan false))],
    meterRow 2 [("place", .text "loft"), ("reading", .number (.zero true))],
    meterRow 3 [("place", .text "hall"), ("reading", .number (.zero false))],
    meterRow 4 [("reading", .number (.nan true))]]
  let results := results.insert ⟨[], ["reading"]⟩ [
    meterRow 5 [("reading", .number (.nan false))],
    meterRow 5 [("reading", .number (.zero false))]]
  let results := results.insert ⟨["place"], []⟩ [
    meterRow 4 [("place", .text "hall")], meterRow 2 [("place", .text "loft")], meterRow 4 []]
  results.insertFailed ⟨[], []⟩

/-- The order of the rows of a grouping that have different values changes nothing in a table but
how equal headers are written. -/
theorem table_same_of_perm (p : Pivot) (c : Collapsed) {results results' : Results}
    (hperm : results.Perm results') (hunique : results.IsUnique) :
    (p.table c results).Same (p.table c results') := by
  have hbase := hperm.getD p.full
  have hrows := Header.ofRows_same c p.options.showSummary p.rows hbase
  have hcolumns := Header.ofRows_same c p.options.showSummary p.columns hbase
  exact ⟨hrows, hcolumns, forall₂_leaves_path hrows, forall₂_leaves_path hcolumns,
    p.cells_eq_of_perm hperm hunique (forall₂_leaves_path hrows) (forall₂_leaves_path hcolumns)⟩

theorem table_meterCounts_same :
    meterCounts.Perm meterCounts.reverse ∧ meterCounts.IsUnique ∧
      (meters.table .empty meterCounts).Same (meters.table .empty meterCounts.reverse) ∧
      (meters.table .empty meterCounts).columnLeaves ≠
        (meters.table .empty meterCounts.reverse).columnLeaves := by
  have hunique : meterCounts.IsUnique := Results.isUnique_of_forall_mem (by decide)
  exact ⟨Results.perm_reverse _, hunique,
    table_same_of_perm meters .empty (Results.perm_reverse _) hunique, by decide⟩

end Pivot

end ChartQuery
