import ChartQuery.Proofs.Pivot.Collapsing

namespace ChartQuery

theorem Literal.beq_of_eqv {a b : Literal} (h : a.eqv b = true) :
    (HeaderValue.ofLiteral a == HeaderValue.ofLiteral b) = true := by
  cases a <;> cases b <;>
    simp_all [eqv, HeaderValue.ofLiteral, HeaderValue.beq_def, HeaderValue.eqv, Binary64.same]

namespace Path

theorem headers_beq_of_eqv {p q : Path} (h : eqv p q = true) : (p.headers == q.headers) = true := by
  induction p generalizing q with
  | nil =>
    cases q with
    | nil => rfl
    | cons t q => contradiction
  | cons s p ih =>
    cases q with
    | nil => contradiction
    | cons t q =>
      simp only [eqv, Segment.eqv, Bool.and_eq_true] at h
      obtain ⟨⟨-, hvalue⟩, hrest⟩ := h
      simp only [headers, List.map_cons, List.cons_beq_cons, Bool.and_eq_true]
      exact ⟨Literal.beq_of_eqv hvalue, ih hrest⟩

theorem length_eq_of_eqv {p q : Path} (h : eqv p q = true) : p.length = q.length := by
  simpa [keys] using congrArg List.length (keys_eq_of_eqv h)

theorem eqv_append {p q r s : Path} (h : p.length = r.length) :
    eqv (p ++ q) (r ++ s) = (eqv p r && eqv q s) := by
  induction p generalizing r with
  | nil =>
    obtain rfl : r = [] := List.eq_nil_of_length_eq_zero h.symm
    rfl
  | cons a p ih =>
    cases r with
    | nil => contradiction
    | cons b r =>
      rw [List.cons_append, List.cons_append, eqv, eqv, ih (Nat.succ.inj h), Bool.and_assoc]

end Path

/-- A value has only one place in an ascending list. -/
theorem HeaderValue.IsAscending.index_eq {vs : List HeaderValue} (h : IsAscending vs) {i j : Nat}
    {v w : HeaderValue} (hi : vs[i]? = some v) (hj : vs[j]? = some w) (he : (v == w) = true) :
    i = j := by
  have hlt : ∀ {i j : Nat} {v w : HeaderValue}, vs[i]? = some v → vs[j]? = some w → i < j →
      (v == w) = false := by
    intro i j v w hi hj hij
    obtain ⟨hilt, rfl⟩ := List.getElem?_eq_some_iff.mp hi
    obtain ⟨hjlt, rfl⟩ := List.getElem?_eq_some_iff.mp hj
    exact beq_eq_false_of_cmp_eq_lt (List.pairwise_iff_getElem.mp h i j hilt hjlt hij)
  rcases Nat.lt_trichotomy i j with hij | hij | hij
  · rw [hlt hi hj hij] at he
    contradiction
  · exact hij
  · rw [BEq.comm, hlt hj hi hij] at he
    contradiction

namespace Header

theorem at?_eq_none_of_isLeaf {h : Header} (hc : h.children = []) (i : Nat) (position : List Nat) :
    h.at? (i :: position) = none := by
  simp [at?, hc]

theorem getElem?_withSummary {summary : Bool} {path : Path} {hs : List Header} {i : Nat}
    {h : Header} (hi : (withSummary summary path hs)[i]? = some h) :
    hs[i]? = some h ∨ h = summaryOf path := by
  unfold withSummary at hi
  split at hi
  · rw [List.getElem?_append] at hi
    split at hi
    · exact .inl hi
    · exact .inr (List.mem_singleton.mp (List.mem_of_getElem? hi))
  · exact .inl hi

/-- The header divides the rows by the dimensions: beneath it stand their headers. -/
def Divides (c : Collapsed) (summary : Bool) (dims : List String) (rows : List Row)
    (h : Header) : Prop :=
  h.children = withSummary summary h.path (beneath c summary dims h.path rows)

theorem divides_ofRows (c : Collapsed) (summary : Bool) (dims : List String) (rows : List Row) :
    Divides c summary dims rows (ofRows c summary dims rows) := rfl

/-- A collapsed header divides its rows no further. -/
theorem divides_ofValue (c : Collapsed) (summary : Bool) (key : String) (dims : List String)
    (path : Path) (rows : List Row) (v : HeaderValue) :
    ∃ dims' rows', Divides c summary dims' rows' (ofValue c summary key dims path rows v) := by
  cases hc : c.contains (path ++ [⟨key, v.toLiteral⟩]) with
  | true =>
    refine ⟨[], rows, ?_⟩
    rw [Divides, ofValue_children_of_collapsed _ _ _ _ _ _ _ hc]
    simp [beneath, withSummary]
  | false => exact ⟨dims, _, ofValue_children _ _ _ _ _ _ _ hc⟩

namespace Divides

variable {c : Collapsed} {summary : Bool} {dims : List String} {rows : List Row} {h n m : Header}
  {position other : List Nat}

theorem child (hd : Divides c summary dims rows h) {child : Header} {i : Nat}
    (hi : h.children[i]? = some child) :
    child = summaryOf h.path ∨ ∃ key rest v, dims = key :: rest ∧
      (HeaderValue.ascending (rows.map (·.header key)))[i]? = some v ∧
      child = ofValue c summary key rest h.path rows v := by
  rw [hd] at hi
  rcases getElem?_withSummary hi with hi | rfl
  · cases dims with
    | nil => simp [beneath] at hi
    | cons key rest =>
      rw [beneath_cons, List.getElem?_map, Option.map_eq_some_iff] at hi
      obtain ⟨v, hv, rfl⟩ := hi
      exact .inr ⟨key, rest, v, rfl, hv, rfl⟩
  · exact .inl rfl

/-- What holds of every summary and of the header of every value holds of all that stands beneath a
header. -/
theorem of_at? {P : Header → Prop} (hsummary : ∀ path, P (summaryOf path))
    (hvalue : ∀ key dims path rows v, P (ofValue c summary key dims path rows v))
    (hd : Divides c summary dims rows h) {i : Nat} (hn : h.at? (i :: position) = some n) : P n := by
  induction position generalizing h dims rows i with
  | nil =>
    obtain ⟨child, hi, hn⟩ := at?_cons_eq_some_iff.mp hn
    obtain rfl := Option.some.inj hn
    rcases hd.child hi with rfl | ⟨key, rest, v, -, -, rfl⟩
    · exact hsummary _
    · exact hvalue ..
  | cons j position ih =>
    obtain ⟨child, hi, hn⟩ := at?_cons_eq_some_iff.mp hn
    rcases hd.child hi with rfl | ⟨key, rest, v, -, -, rfl⟩
    · rw [at?_eq_none_of_isLeaf rfl] at hn
      contradiction
    · obtain ⟨dims', rows', hd'⟩ := divides_ofValue c summary key rest h.path rows v
      exact ih hd' hn

/-- The step down to a header that is no summary leads to the header of a value. -/
theorem step (hd : Divides c summary dims rows h) {i : Nat}
    (hn : h.at? (i :: position) = some n) (hs : n.isSummary = false) :
    ∃ key rest v, (HeaderValue.ascending (rows.map (·.header key)))[i]? = some v ∧
      dims = key :: rest ∧ h.children[i]? = some (ofValue c summary key rest h.path rows v) ∧
      (ofValue c summary key rest h.path rows v).at? position = some n := by
  obtain ⟨child, hi, hn⟩ := at?_cons_eq_some_iff.mp hn
  rcases hd.child hi with rfl | ⟨key, rest, v, hdims, hv, rfl⟩
  · cases position with
    | nil =>
      obtain rfl := Option.some.inj hn
      contradiction
    | cons j position =>
      rw [at?_eq_none_of_isLeaf rfl] at hn
      contradiction
  · exact ⟨key, rest, v, hv, hdims, hi, hn⟩

/-- The headers on the way to one that is no summary are no summaries either. -/
theorem exists_on_way (hd : Divides c summary dims rows h) (hs : h.isSummary = false)
    {further : List Nat} (hn : h.at? (position ++ further) = some n) (hns : n.isSummary = false) :
    ∃ a dims' rows', h.at? position = some a ∧ a.isSummary = false ∧
      Divides c summary dims' rows' a ∧ a.at? further = some n := by
  induction position generalizing h dims rows with
  | nil => exact ⟨h, dims, rows, rfl, hs, hd, hn⟩
  | cons i position ih =>
    obtain ⟨key, rest, v, -, -, hi, hn⟩ := hd.step hn hns
    obtain ⟨dims', rows', hd'⟩ := divides_ofValue c summary key rest h.path rows v
    obtain ⟨a, dims'', rows'', ha, has, hda, hfurther⟩ := ih hd' rfl hn
    exact ⟨a, dims'', rows'', at?_cons_eq_some_iff.mpr ⟨_, hi, ha⟩, has, hda, hfurther⟩

/-- The path of a header continues that of the header above it, by a segment for each step down. -/
theorem exists_path_eq (hd : Divides c summary dims rows h) (hn : h.at? position = some n)
    (hs : n.isSummary = false) :
    ∃ rest, n.path = h.path ++ rest ∧ rest.length = position.length := by
  induction position generalizing h dims rows with
  | nil =>
    obtain rfl := Option.some.inj hn
    exact ⟨[], by simp⟩
  | cons i position ih =>
    obtain ⟨key, below, v, -, -, -, hn⟩ := hd.step hn hs
    obtain ⟨dims', rows', hd'⟩ := divides_ofValue c summary key below h.path rows v
    obtain ⟨rest, hpath, hlength⟩ := ih hd' hn
    exact ⟨⟨key, v.toLiteral⟩ :: rest, by simp [hpath], by simp [hlength]⟩

theorem length_path (hd : Divides c summary dims rows h) (hn : h.at? position = some n)
    (hs : n.isSummary = false) : n.path.length = h.path.length + position.length := by
  obtain ⟨rest, hpath, hlength⟩ := hd.exists_path_eq hn hs
  rw [hpath, List.length_append, hlength]

/-- Headers that are no summaries differ in their paths. -/
theorem position_eq (hd : Divides c summary dims rows h) (hn : h.at? position = some n)
    (hns : n.isSummary = false) (hm : h.at? other = some m) (hms : m.isSummary = false)
    (he : (n.path.headers == m.path.headers) = true) : position = other := by
  have hlength : position.length = other.length := by
    have heq : n.path.headers.length = m.path.headers.length := List.length_eq_of_beq he
    rw [Path.headers, Path.headers, List.length_map, List.length_map, hd.length_path hn hns,
      hd.length_path hm hms] at heq
    omega
  induction position generalizing h dims rows other with
  | nil => exact (List.eq_nil_of_length_eq_zero hlength.symm).symm
  | cons i position ih =>
    cases other with
    | nil => contradiction
    | cons j other =>
      obtain ⟨key, rest, v, hv, rfl, -, hn⟩ := hd.step hn hns
      obtain ⟨_, _, w, hw, heq, -, hm⟩ := hd.step hm hms
      obtain ⟨rfl, rfl⟩ := List.cons.inj heq
      obtain ⟨dims', rows', hdv⟩ := divides_ofValue c summary key rest h.path rows v
      obtain ⟨_, _, hdw⟩ := divides_ofValue c summary key rest h.path rows w
      -- The values of the two steps are found behind the path of the header in both paths.
      have hvw : (v == w) = true := by
        obtain ⟨us, hus, -⟩ := hdv.exists_path_eq hn hns
        obtain ⟨ws, hws, -⟩ := hdw.exists_path_eq hm hms
        rw [hus, hws, Path.headers_append, Path.headers_append, ofValue_path, ofValue_path,
          Path.headers_append, Path.headers_append, List.append_assoc, List.append_assoc,
          append_beq_append rfl] at he
        simp_all
      obtain rfl := (HeaderValue.isAscending_ascending _).index_eq hv hw hvw
      obtain rfl : v = w := Option.some.inj (hv.symm.trans hw)
      rw [ih hdv hn hm (Nat.succ.inj hlength)]

end Divides

end Header

end ChartQuery
