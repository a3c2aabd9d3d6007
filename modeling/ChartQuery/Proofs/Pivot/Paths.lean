import ChartQuery.Pivot.Table
import ChartQuery.Proofs.Pivot.Headers
import Mathlib.Data.List.Pairwise

namespace ChartQuery

section

variable {α : Type} [BEq α]

theorem append_beq_append {as bs cs ds : List α} (h : as.length = cs.length) :
    (as ++ bs == cs ++ ds) = (as == cs && bs == ds) := by
  induction as generalizing cs with
  | nil =>
    obtain rfl : cs = [] := List.eq_nil_of_length_eq_zero h.symm
    simp
  | cons a as ih =>
    cases cs with
    | nil => simp at h
    | cons c cs =>
      have ht : as.length = cs.length := by simpa using h
      simp only [List.cons_append, List.cons_beq_cons, ih ht, Bool.and_assoc]

theorem isPrefixOf_append {as bs cs : List α} (h : as.length = bs.length) :
    as.isPrefixOf (bs ++ cs) = (as == bs) := by
  induction as generalizing bs with
  | nil =>
    obtain rfl : bs = [] := List.eq_nil_of_length_eq_zero h.symm
    simp
  | cons a as ih =>
    cases bs with
    | nil => simp at h
    | cons b bs =>
      have ht : as.length = bs.length := by simpa using h
      simp only [List.cons_append, List.isPrefixOf_cons_cons, List.cons_beq_cons, ih ht]

end

theorem Row.headers_append (r : Row) (as bs : List String) :
    r.headers (as ++ bs) = r.headers as ++ r.headers bs := List.map_append

@[simp] theorem Row.length_headers (r : Row) (fids : List String) :
    (r.headers fids).length = fids.length := List.length_map _

/-- Of rows that differ pairwise along some dimensions, no two have equal values there. -/
theorem Row.eq_of_headers_beq {fids : List String} {rows : List Row}
    (h : rows.Pairwise fun r s => (r.headers fids == s.headers fids) = false) {r s : Row}
    (hr : r ∈ rows) (hs : s ∈ rows) (he : (r.headers fids == s.headers fids) = true) : r = s := by
  by_contra hne
  have : Std.Symm fun r s : Row => (r.headers fids == s.headers fids) = false :=
    ⟨fun a b hab => by rw [BEq.comm]; exact hab⟩
  have hd := h.forall hr hs hne
  rw [he] at hd
  exact Bool.noConfusion hd

namespace Path

/-- The dimensions of a path. -/
def keys (path : Path) : List String := path.map Segment.key

@[simp] theorem keys_nil : keys [] = [] := rfl

@[simp] theorem keys_append (p q : Path) : keys (p ++ q) = keys p ++ keys q := List.map_append

@[simp] theorem keys_singleton (s : Segment) : keys [s] = [s.key] := rfl

@[simp] theorem headers_append (p q : Path) : headers (p ++ q) = p.headers ++ q.headers :=
  List.map_append

@[simp] theorem headers_step (key : String) (v : HeaderValue) :
    headers [⟨key, v.toLiteral⟩] = [v] := by
  simp [headers]

theorem length_headers (path : Path) : path.headers.length = path.keys.length := by
  simp [headers, keys]

theorem keys_eq_of_eqv {p q : Path} (h : eqv p q = true) : keys p = keys q := by
  induction p generalizing q with
  | nil =>
    cases q with
    | nil => rfl
    | cons b q => simp [eqv] at h
  | cons a p ih =>
    cases q with
    | nil => simp [eqv] at h
    | cons b q =>
      simp only [eqv, Segment.eqv, Bool.and_eq_true, beq_iff_eq] at h
      have ht := ih h.2
      simp_all [keys]

/-- The values of a row begin with those of a path that leads along its first dimensions. -/
theorem isPrefixOf_headers {path : Path} {dims : List String} (h : path.keys <+: dims) (r : Row) :
    path.headers.isPrefixOf (r.headers dims) = (r.headers path.keys == path.headers) := by
  obtain ⟨rest, rfl⟩ := h
  rw [Row.headers_append, isPrefixOf_append (by rw [length_headers, Row.length_headers])]
  exact Bool.eq_iff_iff.mpr ⟨BEq.symm, BEq.symm⟩

/-- Rows are looked up by their row dimensions first, but fetched by their column dimensions
first. -/
theorem headers_groupBy_beq (row column : Path) (r : Row) :
    (r.headers (Grouping.ofPaths row column).groupBy == column.headers ++ row.headers) =
      (r.headers (row.keys ++ column.keys) == row.headers ++ column.headers) := by
  have hg : (Grouping.ofPaths row column).groupBy = column.keys ++ row.keys := rfl
  rw [hg, Row.headers_append, Row.headers_append,
    append_beq_append (by rw [length_headers, Row.length_headers]),
    append_beq_append (by rw [length_headers, Row.length_headers]), Bool.and_comm]

end Path

end ChartQuery
