import ChartQuery.Distinct
import ChartQuery.Proofs.Transform.Rewriting
import Mathlib.Data.List.Forall2
import Mathlib.Data.List.Perm.Basic

namespace ChartQuery

namespace Legend

/-- The colour indices that have an entry. -/
def keys (l : Legend) : List UInt32 := l.entries.map Prod.fst

theorem keys_nodup (l : Legend) : l.keys.Nodup :=
  List.pairwise_map.2 (l.ascending.imp fun h => UInt32.ne_of_lt h)

theorem mem_entries_iff {l : Legend} {i : UInt32} {e : LegendEntry} :
    (i, e) ∈ l.entries ↔ l.get? i = some e := by
  rw [get?, List.lookup_eq_some_iff]
  constructor
  · intro h
    obtain ⟨before, after, hsplit⟩ := List.append_of_mem h
    refine ⟨before, after, hsplit, ?_⟩
    intro p hp
    have hlt : p.1 < i := by
      have hascending := l.ascending
      rw [hsplit] at hascending
      exact (List.pairwise_append.1 hascending).2.2 p hp (i, e) List.mem_cons_self
    simpa using (UInt32.ne_of_lt hlt).symm
  · rintro ⟨before, after, hsplit, -⟩
    rw [hsplit]
    simp

theorem mem_keys_iff {l : Legend} {i : UInt32} : i ∈ l.keys ↔ ∃ e, l.get? i = some e := by
  simp only [keys, List.mem_map, ← mem_entries_iff]
  constructor
  · rintro ⟨⟨j, e⟩, hmem, rfl⟩
    exact ⟨e, hmem⟩
  · rintro ⟨e, hmem⟩
    exact ⟨(i, e), hmem, rfl⟩

theorem lookup_cons (j k : UInt32) (f : LegendEntry) (entries : List (UInt32 × LegendEntry)) :
    ((k, f) :: entries).lookup j = if j = k then some f else entries.lookup j := by
  by_cases h : j = k
  · rw [h, List.lookup_cons_self, if_pos rfl]
  · rw [List.lookup_cons, beq_eq_false_iff_ne.2 h, if_neg h]

theorem lookup_put (i j : UInt32) (e : LegendEntry) (entries : List (UInt32 × LegendEntry)) :
    (put i e entries).lookup j = if j = i then some e else entries.lookup j := by
  induction entries with
  | nil => exact lookup_cons j i e []
  | cons p entries ih =>
    obtain ⟨k, f⟩ := p
    rw [put]
    split
    · exact lookup_cons j i e _
    · split
      · next hki =>
        rw [lookup_cons, lookup_cons, ih]
        by_cases h : j = k
        · rw [if_pos h, if_pos h, h, if_neg (UInt32.ne_of_lt hki)]
        · rw [if_neg h, if_neg h]
      · next hik hki =>
        obtain rfl : k = i := UInt32.le_antisymm (UInt32.not_lt.1 hik) (UInt32.not_lt.1 hki)
        rw [lookup_cons, lookup_cons]
        by_cases h : j = k
        · rw [if_pos h, if_pos h]
        · rw [if_neg h, if_neg h, if_neg h]

theorem get?_insert (l : Legend) (i j : UInt32) (e : LegendEntry) :
    (l.insert i e).get? j = if j = i then some e else l.get? j :=
  lookup_put i j e l.entries

theorem get?_foldl_insert (f : UInt32 → LegendEntry) (is : List UInt32) (l : Legend) (j : UInt32) :
    (is.foldl (fun l i => l.insert i (f i)) l).get? j =
      if j ∈ is then some (f j) else l.get? j := by
  induction is generalizing l with
  | nil => simp
  | cons i is ih =>
    rw [List.foldl_cons, ih, get?_insert]
    by_cases his : j ∈ is
    · simp [his]
    · by_cases hji : j = i
      · simp [hji]
      · simp [his, hji]

/-- A legend made of a list of indices has an entry for each of them, however often it comes. -/
theorem get?_ofList_map (f : UInt32 → LegendEntry) (is : List UInt32) (j : UInt32) :
    (ofList (is.map fun i => (i, f i))).get? j = if j ∈ is then some (f j) else none := by
  rw [ofList, List.foldl_map]
  exact get?_foldl_insert f is empty j

end Legend

namespace PaintMap

/-- The legend names the colours in use, each once and without its colour, and what is not painted
has no name. Nothing else of the map changes, and it lists no colours any more. -/
structure CompactsTo (m out : PaintMap) : Prop where
  axes : out.x = m.x ∧ out.y = m.y
  domains : out.domainX = m.domainX ∧ out.domainY = m.domainY
  grid : out.grid = m.grid
  width : out.width = m.width
  used : out.used = []
  keys : out.legend.keys.Perm (distinct m.used)
  colorless : ∀ p ∈ out.legend.entries, p.2.color = none
  name : ∀ i ∈ m.used, i ≠ unpainted → out.legend.name i = m.legend.name i
  name_unpainted : out.legend.name unpainted = ""

theorem get?_legend_compact (m : PaintMap) (i : UInt32) :
    m.compact.legend.get? i = if i ∈ m.used then some ⟨m.shownName i, none⟩ else none :=
  Legend.get?_ofList_map (fun i => ⟨m.shownName i, none⟩) m.used i

theorem name_legend_compact (m : PaintMap) (i : UInt32) :
    m.compact.legend.name i = if i ∈ m.used then m.shownName i else "" := by
  rw [Legend.name, get?_legend_compact]
  split
  · rfl
  · rfl

theorem compactsTo_compact (m : PaintMap) : m.CompactsTo m.compact where
  axes := ⟨rfl, rfl⟩
  domains := ⟨rfl, rfl⟩
  grid := rfl
  width := rfl
  used := rfl
  keys := by
    refine (List.perm_ext_iff_of_nodup (Legend.keys_nodup _) (distinct_nodup _)).2 fun i => ?_
    rw [Legend.mem_keys_iff, get?_legend_compact, mem_distinct]
    by_cases h : i ∈ m.used <;> simp [h]
  colorless := by
    rintro ⟨i, e⟩ hmem
    rw [Legend.mem_entries_iff, get?_legend_compact] at hmem
    split at hmem
    · cases hmem
      rfl
    · cases hmem
  name := by
    intro i hi hne
    rw [name_legend_compact, if_pos hi, shownName, if_neg hne]
  name_unpainted := by
    rw [name_legend_compact, shownName, if_pos rfl, ite_self]

end PaintMap

/-- A map of a paint operator is compacted, any other parameter is kept. -/
inductive Param.NormalizesTo (op : String) : Param → Param → Prop where
  | map {m out : PaintMap} (hop : op = Expression.paintOp) (hm : m.CompactsTo out) :
    NormalizesTo op (.map m) (.map out)
  | kept {p : Param} (hp : op = Expression.paintOp → ∀ m, p ≠ .map m) : NormalizesTo op p p

namespace Expression

/-- The same operator reads the same fields for the same target; its parameters are normalized
each in its place. -/
structure NormalizesTo (e out : Expression) : Prop where
  references : out.references = e.references
  op : out.op = e.op
  target : out.target = e.target
  params : List.Forall₂ (Param.NormalizesTo e.op) e.params out.params

theorem normalizesTo_compactParam {op : String} (hop : op = paintOp) (p : Param) :
    p.NormalizesTo op (compactParam p) := by
  cases p with
  | map m => exact .map hop m.compactsTo_compact
  | _ => exact .kept fun _ m => Param.noConfusion

theorem normalize_of_op_eq {e : Expression} (h : e.op = paintOp) :
    e.normalize = ⟨e.op, e.params.map compactParam, e.target⟩ := if_pos h

theorem normalize_of_op_ne {e : Expression} (h : e.op ≠ paintOp) : e.normalize = e := if_neg h

theorem normalizesTo_normalize (e : Expression) : e.NormalizesTo e.normalize := by
  by_cases h : e.op = paintOp
  · refine ⟨e.references_normalize, ?_, ?_, ?_⟩
    · rw [normalize_of_op_eq h]
    · rw [normalize_of_op_eq h]
    · rw [normalize_of_op_eq h, List.forall₂_map_right_iff, List.forall₂_same]
      exact fun p _ => normalizesTo_compactParam h p
  · rw [normalize_of_op_ne h]
    refine ⟨rfl, rfl, rfl, List.forall₂_same.2 ?_⟩
    intro p _
    exact .kept fun hop => absurd hop h

end Expression

namespace Transform

/-- The transform with its expression as it is sent off. -/
def normalize (t : Transform) : Transform := ⟨t.key, t.expression.normalize⟩

theorem keepsReferences_normalize : KeepsReferences normalize where
  key _ := rfl
  references t := t.expression.references_normalize

end Transform

/-- Normalizing compacts the maps of paint operators and keeps everything else. Pruning and ordering
give the same keys before and after it. -/
theorem normalize_keeps_remainder :
    (∀ e : Expression, e.NormalizesTo e.normalize) ∧
      ∀ (policy : CyclePolicy) (keys : List String) (ts : List Transform),
        (Transform.needed keys (ts.map Transform.normalize)).map Transform.key =
          (Transform.needed keys ts).map Transform.key ∧
        (Transform.order policy (ts.map Transform.normalize)).map (List.map Transform.key) =
          (Transform.order policy ts).map (List.map Transform.key) := by
  have hkeeps := Transform.keepsReferences_normalize
  refine ⟨Expression.normalizesTo_normalize, fun policy keys ts => ⟨?_, ?_⟩⟩
  · rw [hkeeps.needed_map, hkeeps.map_key]
  · rw [hkeeps.order_map]
    cases Transform.order policy ts with
    | ok order => simp only [Except.map, hkeeps.map_key]
    | error circle => rfl

end ChartQuery
