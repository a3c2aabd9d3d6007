import ChartQuery.Pivot.Table
import ChartQuery.Proofs.Binary64.Order
import ChartQuery.Proofs.Pivot.HeaderOrder
import Mathlib.Data.List.Induction

namespace ChartQuery

/-- The rows of a level that have one value. -/
structure ValueGroup where
  value : HeaderValue
  rows : List Row

namespace ValueGroup

/-- Puts a row into the group of its value. The groups ascend, and the order of their values says
where the row belongs; the first of equal values stays. -/
def add (v : HeaderValue) (r : Row) : List ValueGroup → List ValueGroup
  | [] => [⟨v, [r]⟩]
  | g :: groups =>
    match v.cmp g.value with
    | .lt => ⟨v, [r]⟩ :: g :: groups
    | .eq => ⟨g.value, g.rows ++ [r]⟩ :: groups
    | .gt => g :: add v r groups

/-- The rows of a level, put into their groups one after the other. -/
def ofRows (key : String) (rows : List Row) : List ValueGroup :=
  rows.foldl (fun groups r => add (r.header key) r groups) []

/-- All rows with a value. -/
def ofValue (key : String) (rows : List Row) (v : HeaderValue) : ValueGroup :=
  ⟨v, rows.filter fun r => r.header key == v⟩

variable {key : String} {rows : List Row} {r s : Row} {v w : HeaderValue} {vs : List HeaderValue}

theorem ofRows_concat : ofRows key (rows ++ [r]) = add (r.header key) r (ofRows key rows) := by
  rw [ofRows, List.foldl_append]
  rfl

theorem ofValue_concat_of_beq (h : (r.header key == v) = true) :
    ofValue key (rows ++ [r]) v = ⟨v, (ofValue key rows v).rows ++ [r]⟩ := by
  simp [ofValue, h]

theorem ofValue_concat_of_ne (h : (r.header key == v) = false) :
    ofValue key (rows ++ [r]) v = ofValue key rows v := by
  simp [ofValue, h]

theorem map_ofValue_concat (h : ∀ v ∈ vs, (r.header key).cmp v = .lt) :
    vs.map (ofValue key (rows ++ [r])) = vs.map (ofValue key rows) :=
  List.map_congr_left fun v hv =>
    ofValue_concat_of_ne (HeaderValue.beq_eq_false_of_cmp_eq_lt (h v hv))

/-- If the groups so far hold all rows that have the value of a new one, the new row joins them or
opens the only group with its value. -/
theorem add_map_ofValue (hvs : HeaderValue.IsAscending vs)
    (hnew : (∀ v ∈ vs, (r.header key == v) = false) →
      (ofValue key rows (r.header key)).rows = []) :
    add (r.header key) r (vs.map (ofValue key rows)) =
      (HeaderValue.insert (r.header key) vs).map (ofValue key (rows ++ [r])) := by
  have hself : (r.header key == r.header key) = true := BEq.rfl
  induction vs with
  | nil =>
    have hnone := hnew (by simp)
    simp [add, HeaderValue.insert, ofValue_concat_of_beq hself, hnone]
  | cons v vs ih =>
    obtain ⟨hv, htail⟩ := List.pairwise_cons.mp hvs
    rw [List.map_cons, add, HeaderValue.insert]
    change (match (r.header key).cmp v with | .lt => _ | .eq => _ | .gt => _) = _
    cases hc : (r.header key).cmp v with
    | lt =>
      have habove : ∀ w ∈ v :: vs, (r.header key).cmp w = .lt :=
        List.forall_mem_cons.mpr ⟨hc, fun w hw => Std.TransCmp.lt_trans hc (hv w hw)⟩
      have hnone := hnew fun w hw => HeaderValue.beq_eq_false_of_cmp_eq_lt (habove w hw)
      rw [List.map_cons, ofValue_concat_of_beq hself, hnone, map_ofValue_concat habove]
      rfl
    | eq =>
      have heq : (r.header key == v) = true := HeaderValue.cmp_eq_eq_iff.mp hc
      have habove : ∀ w ∈ vs, (r.header key).cmp w = .lt :=
        fun w hw => Std.TransCmp.lt_of_eq_of_lt hc (hv w hw)
      rw [List.map_cons, ofValue_concat_of_beq heq, map_ofValue_concat habove]
      rfl
    | gt =>
      have hne : (r.header key == v) = false := by
        rw [BEq.comm]
        exact HeaderValue.beq_eq_false_of_cmp_eq_lt (Std.OrientedCmp.lt_of_gt hc)
      have hrest := ih htail fun hvs' => hnew (List.forall_mem_cons.mpr ⟨hne, hvs'⟩)
      rw [List.map_cons, ofValue_concat_of_ne hne, ← hrest]

/-- The order finds for each value all rows that are equal to it. -/
theorem ofRows_eq_map (key : String) (rows : List Row) : ofRows key rows =
    (HeaderValue.ascending (rows.map (·.header key))).map (ofValue key rows) := by
  induction rows using List.reverseRecOn with
  | nil => rfl
  | append_singleton rows r ih =>
    have hascending : HeaderValue.ascending ((rows ++ [r]).map (·.header key)) =
        HeaderValue.insert (r.header key) (HeaderValue.ascending (rows.map (·.header key))) := by
      rw [HeaderValue.ascending, List.map_append, List.foldl_append]
      rfl
    rw [ofRows_concat, ih, hascending]
    refine add_map_ofValue (HeaderValue.isAscending_ascending _) fun hnew => ?_
    refine List.filter_eq_nil_iff.mpr fun s hs heq => ?_
    have hmem : s.header key ∈ rows.map (·.header key) := List.mem_map_of_mem hs
    obtain ⟨w, hw, hws⟩ := HeaderValue.exists_beq_ascending hmem
    have hrw := BEq.symm (BEq.trans hws heq)
    rw [hnew w hw] at hrw
    contradiction

theorem exists_mem_ofRows_iff (hr : r ∈ rows) (hs : s ∈ rows) :
    (∃ g ∈ ofRows key rows, r ∈ g.rows ∧ s ∈ g.rows) ↔ (r.header key == s.header key) = true := by
  simp only [ofRows_eq_map, List.mem_map, exists_exists_and_eq_and, ofValue, List.mem_filter, hr,
    hs, true_and]
  constructor
  · rintro ⟨v, -, hrv, hsv⟩
    exact BEq.trans hrv (BEq.symm hsv)
  · intro heq
    have hmem : r.header key ∈ rows.map (·.header key) := List.mem_map_of_mem hr
    obtain ⟨v, hv, hvr⟩ := HeaderValue.exists_beq_ascending hmem
    exact ⟨v, hv, BEq.symm hvr, BEq.symm (BEq.trans hvr heq)⟩

end ValueGroup

namespace Header

/-- The header of a group, with those of the remaining dimensions beneath it. -/
def ofGroup (c : Collapsed) (summary : Bool) (key : String) (dims : List String) (path : Path)
    (g : ValueGroup) : Header :=
  let here := path ++ [⟨key, g.value.toLiteral⟩]
  let collapsed := c.contains here
  let children :=
    if collapsed then [] else withSummary summary here (beneath c summary dims here g.rows)
  ⟨key, g.value.toLiteral, here, here.length, children, collapsed, false⟩

theorem beneath_eq_map_ofGroup (c : Collapsed) (summary : Bool) (key : String)
    (dims : List String) (path : Path) (rows : List Row) :
    beneath c summary (key :: dims) path rows =
      (ValueGroup.ofRows key rows).map (ofGroup c summary key dims path) := by
  rw [ValueGroup.ofRows_eq_map, List.map_map]
  rfl

end Header

theorem Row.headers_beq_iff {r s : Row} {fids : List String} :
    (r.headers fids == s.headers fids) = true ↔
      ∀ fid ∈ fids, (r.header fid == s.header fid) = true := by
  induction fids with
  | nil => exact iff_of_true BEq.rfl (by simp)
  | cons fid fids ih =>
    have hcons : ∀ t : Row, t.headers (fid :: fids) = t.header fid :: t.headers fids := fun _ => rfl
    rw [hcons, hcons, List.cons_beq_cons, Bool.and_eq_true, ih, List.forall_mem_cons]

namespace RowIndex

variable {fids : List String} {rows : List Row} {r s : Row}

/-- Rows have one place in an index exactly if their values are equal. -/
theorem getElem?_headers_eq_iff (hr : r ∈ rows) :
    (ofRows fids rows)[r.headers fids]? = (ofRows fids rows)[s.headers fids]? ↔
      (r.headers fids == s.headers fids) = true := by
  rw [getElem?_ofRows, getElem?_ofRows]
  constructor
  · intro heq
    have hfound : (rows.find? (·.headers fids == r.headers fids)).isSome = true :=
      List.find?_isSome.mpr ⟨r, hr, BEq.rfl⟩
    obtain ⟨t, ht⟩ := Option.isSome_iff_exists.mp hfound
    have htr : (t.headers fids == r.headers fids) = true := by simpa using List.find?_some ht
    rw [ht] at heq
    have hts : (t.headers fids == s.headers fids) = true := by simpa using List.find?_some heq.symm
    exact BEq.trans (BEq.symm htr) hts
  · intro heq
    congr 1
    funext t
    exact BEq.congr_right heq

end RowIndex

/-- An equality with an order of its classes, which is total. -/
structure IsOrdered {α : Type} (eqv : α → α → Bool) (cmp : α → α → Ordering) : Prop where
  refl : ∀ a, eqv a a = true
  symm : ∀ a b, eqv a b = true → eqv b a = true
  trans : ∀ a b c, eqv a b = true → eqv b c = true → eqv a c = true
  cmp_eq_iff : ∀ a b, cmp a b = .eq ↔ eqv a b = true
  cmp_swap : ∀ a b, cmp b a = (cmp a b).swap
  lt_trans : ∀ a b c, cmp a b = .lt → cmp b c = .lt → cmp a c = .lt
  le_trans : ∀ a b c, (cmp a b).isLE = true → (cmp b c).isLE = true → (cmp a c).isLE = true

/-- The headers of all levels are those of the groups that the order finds, and rows have one place
in an index exactly if they are in one group in each of its dimensions. -/
structure GroupsAlike (rows : List Row) : Prop where
  headers : ∀ c summary key dims path,
    Header.beneath c summary (key :: dims) path rows =
      (ValueGroup.ofRows key rows).map (Header.ofGroup c summary key dims path)
  places : ∀ fids, ∀ r ∈ rows, ∀ s ∈ rows,
    ((RowIndex.ofRows fids rows)[r.headers fids]? = (RowIndex.ofRows fids rows)[s.headers fids]? ↔
      ∀ fid ∈ fids, ∃ g ∈ ValueGroup.ofRows fid rows, r ∈ g.rows ∧ s ∈ g.rows)

theorem groupsAlike (rows : List Row) : GroupsAlike rows where
  headers c summary key dims path := Header.beneath_eq_map_ofGroup c summary key dims path rows
  places := by
    intro fids r hr s hs
    rw [RowIndex.getElem?_headers_eq_iff hr, Row.headers_beq_iff]
    simp only [ValueGroup.exists_mem_ofRows_iff hr hs]

namespace HeaderValue

theorem isOrdered_cmp : IsOrdered (fun v w => v == w) cmp where
  refl _ := BEq.rfl
  symm _ _ := BEq.symm
  trans _ _ _ := BEq.trans
  cmp_eq_iff _ _ := cmp_eq_eq_iff
  cmp_swap v w := cmp_eq_swap w v
  lt_trans _ _ _ := Std.TransCmp.lt_trans
  le_trans _ _ _ := isLE_cmp_trans

/-- Header values are equal exactly if they compare as equal, and the order of their classes is
total: numbers stand by value, the two zeros are one and all NaNs are one after the infinities.
So the headers of a level and an index of rows take the same values for one. -/
theorem order_agrees_with_equality :
    IsOrdered (fun v w => v == w) cmp ∧
      (∀ x y : Binary64,
        (number x).cmp (number y) = (x.numCmp? y).getD (compare x.isNaN y.isNaN) ∧
        (number x == number y) = (x.isNaN && y.isNaN || x.numCmp? y == some .eq)) ∧
      ∀ rows : List Row, GroupsAlike rows :=
  ⟨isOrdered_cmp, fun x y => ⟨x.compare_place y, x.same_eq y⟩, groupsAlike⟩

end HeaderValue

/-- A NaN of either sign, and both zeros. -/
example : (ValueGroup.ofRows "reading"
    [[("reading", .number (.nan false))], [("reading", .number (.zero true))],
      [("reading", .number (.zero false))], [("reading", .number (.nan true))], []]).map
        ValueGroup.rows =
    [[[]], [[("reading", .number (.zero true))], [("reading", .number (.zero false))]],
      [[("reading", .number (.nan false))], [("reading", .number (.nan true))]]] := by decide

end ChartQuery
