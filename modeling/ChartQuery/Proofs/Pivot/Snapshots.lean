import ChartQuery.Pivot.Wire
import ChartQuery.Proofs.Distinct
import ChartQuery.Proofs.Expression.Wire
import ChartQuery.Proofs.Pivot.Coverage
import ChartQuery.Proofs.Pivot.Locality
import ChartQuery.Proofs.Pivot.RowOrder

namespace ChartQuery

theorem Literal.isNaN_of_isFinite {l : Literal} (h : l.IsFinite) : l.isNaN = false := by
  cases l with
  | number x =>
    have hx : x.exponent ≠ 2047 := bne_iff_ne.1 h
    rw [isNaN, Binary64.isNaN, beq_eq_false_iff_ne.2 hx, Bool.false_and]
  | _ => rfl

section Json

/-- The numbers that a path leads to are finite. -/
def Path.IsFinite (path : Path) : Prop := ∀ s ∈ path, s.value.IsFinite

theorem Segment.ofJson?_toJson_iff {s : Segment} :
    ofJson? s.toJson = some s ↔ s.value.IsFinite := by
  rw [← Literal.ofJson?_toJson_iff]
  cases s
  simp [ofJson?, toJson, Json.str?, Option.bind_eq_some_iff]

theorem Path.ofJson?_toJson_iff {path : Path} :
    ofJson? (toJson path) = some path ↔ path.IsFinite := by
  simp only [ofJson?, toJson, Json.list?_map_eq_some_iff, Segment.ofJson?_toJson_iff, IsFinite]

/-- A snapshot is read back with all its entries, also those that repeat an id. -/
theorem Collapsed.ofJson?_toJson_iff {c : Collapsed} :
    ofJson? c.toJson = some c ↔ ∀ e ∈ c.entries, Path.IsFinite e.2 := by
  have hentry : ∀ e : String × Path, Json.pair? Json.str? Path.ofJson?
      (.arr [.str e.1, Path.toJson e.2]) = some e ↔ Path.IsFinite e.2 := by
    intro e
    rw [← Path.ofJson?_toJson_iff]
    cases e
    simp [Json.pair?, Json.str?, Option.bind_eq_some_iff]
  simp only [← hentry]
  rw [← Json.list?_map_eq_some_iff]
  cases c
  simp [ofJson?, toJson]

end Json

namespace Path

theorem same_of_eqv {p q : Path} (h : eqv p q = true) : p.Same q :=
  ⟨keys_eq_of_eqv h, headers_beq_of_eqv h⟩

theorem eqv_self_of_isFinite {path : Path} (h : path.IsFinite) : eqv path path = true := by
  rw [eqv_self, hasNaN, Bool.not_eq_true', List.any_eq_false]
  exact fun s hs => Bool.eq_false_iff.1 (Literal.isNaN_of_isFinite (h s hs))

end Path

namespace Pivot

variable {c d : Collapsed}

theorem leadingParts_congr (h : ∀ fid, c.endsIn fid = d.endsIn fid) (dims : List String)
    (summary : Bool) : leadingParts dims c summary = leadingParts dims d summary := by
  simp only [leadingParts, h]

theorem groupings_congr (h : ∀ fid, c.endsIn fid = d.endsIn fid) (rows columns : List String)
    (summary : Bool) : groupings rows columns c summary = groupings rows columns d summary := by
  simp only [groupings, pairings, leadingParts_congr h]

theorem table_congr (h : ∀ path, c.contains path = d.contains path) (p : Pivot)
    (results : Results) : p.table c results = p.table d results := by
  simp only [table, Header.ofRows_congr h]

theorem singleton_mem_groupings (c : Collapsed) (fid : String) :
    ⟨[fid], []⟩ ∈ groupings [fid, fid] [] c false ↔ c.endsIn fid = true := by
  rw [mem_groupings]
  cases hc : c.endsIn fid <;> simp [leadingParts, hc]

/-- The planner sees of a snapshot which dimensions its paths end in, and nothing else. -/
theorem groupings_eq_iff : (∀ rows columns summary,
    groupings rows columns c summary = groupings rows columns d summary) ↔
      ∀ fid, c.endsIn fid = d.endsIn fid := by
  constructor
  · intro h fid
    rw [Bool.eq_iff_iff, ← singleton_mem_groupings, ← singleton_mem_groupings, h]
  · exact groupings_congr

end Pivot

namespace Collapsed

/-- Whoever asks for the paths of a snapshot is answered alike by the two. -/
structure Agrees (c d : Collapsed) : Prop where
  contains : ∀ path, c.contains path = d.contains path
  endsIn : ∀ fid, c.endsIn fid = d.endsIn fid
  groupings : ∀ rows columns summary,
    Pivot.groupings rows columns c summary = Pivot.groupings rows columns d summary
  table : ∀ (p : Pivot) (results : Results), p.table c results = p.table d results

section Subset

variable {c d : Collapsed} (hsub : d.entries ⊆ c.entries)

include hsub

theorem endsIn_eq_iff_of_subset : (∀ fid, c.endsIn fid = d.endsIn fid) ↔
    ∀ e ∈ c.entries, ∀ s ∈ e.2.getLast?, d.endsIn s.key = true := by
  constructor
  · intro h e he s hs
    rw [← h]
    exact endsIn_iff.2 ⟨e, he, s, hs, rfl⟩
  · intro h fid
    rw [Bool.eq_iff_iff]
    constructor
    · intro hends
      obtain ⟨e, he, s, hs, rfl⟩ := endsIn_iff.1 hends
      exact h e he s hs
    · intro hends
      obtain ⟨e, he, hlast⟩ := endsIn_iff.1 hends
      exact endsIn_iff.2 ⟨e, hsub he, hlast⟩

theorem contains_eq_of_subset (h : ∀ e ∈ c.entries, d.contains e.2 = true) (path : Path) :
    c.contains path = d.contains path := by
  rw [Bool.eq_iff_iff]
  constructor
  · intro hpath
    obtain ⟨e, he, heqv⟩ := List.any_eq_true.1 hpath
    obtain ⟨kept, hkept, hkeqv⟩ := List.any_eq_true.1 (h e he)
    rw [(Path.same_of_eqv heqv).eqv_congr] at hkeqv
    exact List.any_eq_true.2 ⟨kept, hkept, hkeqv⟩
  · intro hpath
    obtain ⟨e, he, heqv⟩ := List.any_eq_true.1 hpath
    exact List.any_eq_true.2 ⟨e, hsub he, heqv⟩

theorem agrees_of_subset (h : ∀ e ∈ c.entries, d.contains e.2 = true) : c.Agrees d := by
  have hcontains := contains_eq_of_subset hsub h
  have hends : ∀ fid, c.endsIn fid = d.endsIn fid := by
    rw [endsIn_eq_iff_of_subset hsub]
    intro e he s hs
    have hpath := h e he
    rw [← List.dropLast_append_getLast? s hs] at hpath
    exact endsIn_of_contains hpath
  exact ⟨hcontains, hends, Pivot.groupings_eq_iff.2 hends, Pivot.table_congr hcontains⟩

end Subset

section OfEntries

variable {entries : List (String × Path)}

theorem ofEntries_subset (entries : List (String × Path)) :
    (ofEntries entries).entries ⊆ entries := fun _ => mem_of_mem_distinctBy

theorem eq_ofEntries_iff : ⟨entries⟩ = ofEntries entries ↔ (entries.map Prod.fst).Nodup := by
  rw [ofEntries, mk.injEq, eq_comm, distinctBy_eq_self_iff]

theorem contains_of_mem (h : ∀ e ∈ entries, Path.IsFinite e.2) {e : String × Path}
    (he : e ∈ entries) : contains ⟨entries⟩ e.2 = true :=
  List.any_eq_true.2 ⟨e, he, Path.eqv_self_of_isFinite (h e he)⟩

theorem agrees_ofEntries_iff (h : ∀ e ∈ entries, Path.IsFinite e.2) :
    Agrees ⟨entries⟩ (ofEntries entries) ↔
      ∀ e ∈ entries, (ofEntries entries).contains e.2 = true := by
  constructor
  · intro hagrees e he
    rw [← hagrees.contains]
    exact contains_of_mem h he
  · exact agrees_of_subset (ofEntries_subset entries)

/-- A list of entries whose numbers are finite is read as it stands, so what is read is the
collected snapshot just if no id comes twice. It plans the same groupings just if each path ends in
a dimension in which a collected one ends, and agrees in everything just if each path is collapsed
in the collected snapshot too. -/
theorem read_agrees_iff (h : ∀ e ∈ entries, Path.IsFinite e.2) :
    ofJson? (toJson ⟨entries⟩) = some ⟨entries⟩ ∧
      ((ofEntries entries).entries.map Prod.fst).Nodup ∧
      (⟨entries⟩ = ofEntries entries ↔ (entries.map Prod.fst).Nodup) ∧
      ((∀ rows columns summary, Pivot.groupings rows columns ⟨entries⟩ summary =
          Pivot.groupings rows columns (ofEntries entries) summary) ↔
        ∀ e ∈ entries, ∀ s ∈ e.2.getLast?, (ofEntries entries).endsIn s.key = true) ∧
      (Agrees ⟨entries⟩ (ofEntries entries) ↔
        ∀ e ∈ entries, (ofEntries entries).contains e.2 = true) :=
  ⟨ofJson?_toJson_iff.2 h, distinctBy_keys Prod.fst entries, eq_ofEntries_iff,
    Pivot.groupings_eq_iff.trans (endsIn_eq_iff_of_subset (ofEntries_subset entries)),
    agrees_ofEntries_iff h⟩

end OfEntries

section Regions

/-- The east is collapsed. -/
def east : String × Path := ("a", [⟨"Region", .text "East"⟩])

/-- Within the west technology is collapsed, under the id of the east. -/
def west : String × Path := ("a", [⟨"Region", .text "West"⟩, ⟨"Category", .text "Tech"⟩])

/-- An entry that is sent twice is read twice, which changes no table. -/
theorem read_agrees_resent : (∀ e ∈ [east, east], Path.IsFinite e.2) ∧
    ofJson? (toJson ⟨[east, east]⟩) = some ⟨[east, east]⟩ ∧
    (⟨[east, east]⟩ : Collapsed) ≠ ofEntries [east, east] ∧
    Agrees ⟨[east, east]⟩ (ofEntries [east, east]) := by
  have hfinite : ∀ e ∈ [east, east], Path.IsFinite e.2 := by
    simp [east, Path.IsFinite, Literal.IsFinite]
  obtain ⟨hread, -, heq, -, hagrees⟩ := read_agrees_iff hfinite
  exact ⟨hfinite, hread, mt heq.1 (by decide), hagrees.2 (by decide)⟩

def items : Pivot := ⟨["Region", "Category", "Item"], [], [], ⟨false, false⟩⟩

/-- A pen was sold in the west. -/
def pens : Results := .insert .empty items.full
  [[("Region", .text "West"), ("Category", .text "Tech"), ("Item", .text "Pen")]]

/-- Two paths under one id: what is read closes the second one too, so the pen is hidden and one
more grouping is planned for what hides it. -/
theorem not_agrees_repeated : (∀ e ∈ [east, west], Path.IsFinite e.2) ∧
    ofJson? (toJson ⟨[east, west]⟩) = some ⟨[east, west]⟩ ∧
    (⟨[east, west]⟩ : Collapsed) ≠ ofEntries [east, west] ∧
    ¬ ([east, west].map Prod.fst).Nodup ∧
    contains ⟨[east, west]⟩ west.2 ≠ (ofEntries [east, west]).contains west.2 ∧
    endsIn ⟨[east, west]⟩ "Category" ≠ (ofEntries [east, west]).endsIn "Category" ∧
    Pivot.groupings items.rows items.columns ⟨[east, west]⟩ false ≠
      Pivot.groupings items.rows items.columns (ofEntries [east, west]) false ∧
    (items.table ⟨[east, west]⟩ pens).rowLeaves ≠
      (items.table (ofEntries [east, west]) pens).rowLeaves := by
  have hfinite : ∀ e ∈ [east, west], Path.IsFinite e.2 := by
    simp [east, west, Path.IsFinite, Literal.IsFinite]
  have hread : (items.table ⟨[east, west]⟩ pens).rowLeaves.map List.length = [2] := by rfl
  have hcollected : (items.table (ofEntries [east, west]) pens).rowLeaves.map List.length =
      [3] := by rfl
  refine ⟨hfinite, ofJson?_toJson_iff.2 hfinite, by decide, by decide, by decide, by decide,
    by decide, ?_⟩
  intro h
  rw [h, hcollected] at hread
  simp at hread

end Regions

end Collapsed

end ChartQuery
