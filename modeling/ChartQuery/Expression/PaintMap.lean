import ChartQuery.Binary64.Basic

namespace ChartQuery

structure LegendEntry where
  name : String
  color : Option String
  deriving DecidableEq, Repr

namespace Legend

def put (i : UInt32) (e : LegendEntry) :
    List (UInt32 × LegendEntry) → List (UInt32 × LegendEntry)
  | [] => [(i, e)]
  | (j, f) :: rest =>
    if i < j then (i, e) :: (j, f) :: rest
    else if j < i then (j, f) :: put i e rest
    else (i, e) :: rest

theorem mem_put {i : UInt32} {e : LegendEntry} {entries : List (UInt32 × LegendEntry)}
    {p : UInt32 × LegendEntry} (h : p ∈ put i e entries) : p = (i, e) ∨ p ∈ entries := by
  induction entries with
  | nil => simpa [put] using h
  | cons q rest ih =>
    obtain ⟨j, f⟩ := q
    simp only [put] at h
    split at h
    · simpa using h
    · split at h
      · rcases List.mem_cons.1 h with h | h
        · simp [h]
        · rcases ih h with h | h <;> simp [h]
      · rcases List.mem_cons.1 h with h | h <;> simp [h]

theorem put_ascending (i : UInt32) (e : LegendEntry) {entries : List (UInt32 × LegendEntry)}
    (h : entries.Pairwise (·.1 < ·.1)) : (put i e entries).Pairwise (·.1 < ·.1) := by
  induction entries with
  | nil => simp [put]
  | cons q rest ih =>
    obtain ⟨j, f⟩ := q
    obtain ⟨hj, hrest⟩ := List.pairwise_cons.1 h
    simp only [put]
    split
    · next hij =>
      refine List.pairwise_cons.2 ⟨fun p hp => ?_, h⟩
      rcases List.mem_cons.1 hp with rfl | hp
      · exact hij
      · exact UInt32.lt_trans hij (hj p hp)
    · split
      · next hji =>
        refine List.pairwise_cons.2 ⟨fun p hp => ?_, ih hrest⟩
        rcases mem_put hp with rfl | hp
        · exact hji
        · exact hj p hp
      · next hij hji =>
        have : i = j := UInt32.le_antisymm (UInt32.not_lt.1 hji) (UInt32.not_lt.1 hij)
        subst this
        exact List.pairwise_cons.2 ⟨hj, hrest⟩

end Legend

/-- The colours by index, in ascending order. -/
structure Legend where
  entries : List (UInt32 × LegendEntry)
  ascending : entries.Pairwise (·.1 < ·.1)
  deriving DecidableEq, Repr

namespace Legend

def empty : Legend := ⟨[], .nil⟩

def insert (l : Legend) (i : UInt32) (e : LegendEntry) : Legend :=
  ⟨put i e l.entries, put_ascending i e l.ascending⟩

/-- Of two entries for one index the later one stays. -/
def ofList (entries : List (UInt32 × LegendEntry)) : Legend :=
  entries.foldl (fun l p => l.insert p.1 p.2) empty

def get? (l : Legend) (i : UInt32) : Option LegendEntry := l.entries.lookup i

def name (l : Legend) (i : UInt32) : String := ((l.get? i).map LegendEntry.name).getD ""

end Legend

/-- A grid of colour indices over two fields, with a legend that names the colours. -/
structure PaintMap where
  x : String
  y : String
  domainX : Binary64 × Binary64
  domainY : Binary64 × Binary64
  /-- The grid in an encoding of its own. -/
  grid : String
  legend : Legend
  /-- The colour indices that occur in the grid. -/
  used : List UInt32
  width : UInt32
  deriving DecidableEq, Repr

namespace PaintMap

/-- The colour index of what is not painted. -/
def unpainted : UInt32 := 255

/-- The name under which a colour stays in a compacted legend; what is not painted has none. -/
def shownName (m : PaintMap) (i : UInt32) : String :=
  if i = unpainted then "" else m.legend.name i

/-- Cuts the legend down to the names of the colours in use. -/
def compact (m : PaintMap) : PaintMap :=
  { m with
    legend := .ofList (m.used.map fun i => (i, ⟨m.shownName i, none⟩))
    used := [] }

end PaintMap

end ChartQuery
