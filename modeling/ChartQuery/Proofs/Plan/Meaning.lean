import ChartQuery.Proofs.Plan.Layout
import Mathlib.Logic.Function.Basic

namespace ChartQuery

/-- The values of a row; a column may be absent. -/
abbrev Columns (V : Type) := String → Option V

structure Meaning (V : Type) where
  holds : Condition → Option V → Bool
  compute : Transform → List (Option V) → V

namespace Meaning

variable {V : Type} (m : Meaning V)

/-- No condition holds of an absent column. -/
def IsStrict : Prop := ∀ c, m.holds c none = false

def accepts (r : Columns V) (f : RowFilter) : Bool := m.holds f.condition (r f.fid)

def acceptsAll (fs : List RowFilter) (r : Columns V) : Bool := fs.all (m.accepts r)

/-- Sets the column of a transform from the columns that it reads. -/
def extend (r : Columns V) (t : Transform) : Columns V :=
  Function.update r t.key (some (m.compute t (t.references.map r)))

def extendAll (ts : List Transform) (r : Columns V) : Columns V := ts.foldl m.extend r

/-- Only filters and transforms change the rows on their way to the queries. -/
def runStep (rows : List (Columns V)) : Step → List (Columns V)
  | .filter filters => rows.filter (m.acceptsAll filters)
  | .transform fields => rows.map (m.extendAll fields)
  | .view _ | .sort .. => rows

def run (steps : List Step) (rows : List (Columns V)) : List (Columns V) :=
  steps.foldl m.runStep rows

/-- The rows that reach the first view step. -/
def viewRows (p : Plan) (rows : List (Columns V)) : List (Columns V) :=
  m.run (p.steps.takeWhile (·.kind != .view)) rows

@[simp] theorem acceptsAll_append (fs gs : List RowFilter) (r : Columns V) :
    m.acceptsAll (fs ++ gs) r = (m.acceptsAll fs r && m.acceptsAll gs r) :=
  List.all_append

theorem accepts_of_mem {fs : List RowFilter} {r : Columns V} (h : m.acceptsAll fs r = true)
    {f : RowFilter} (hf : f ∈ fs) : m.accepts r f = true :=
  List.all_eq_true.1 h f hf

theorem extend_of_ne (r : Columns V) (t : Transform) {k : String} (h : k ≠ t.key) :
    m.extend r t k = r k :=
  Function.update_of_ne h _ _

theorem extendAll_of_notMem {ts : List Transform} {k : String} (r : Columns V)
    (h : k ∉ ts.map Transform.key) : m.extendAll ts r k = r k := by
  induction ts generalizing r with
  | nil => rfl
  | cons t ts ih =>
    rw [List.map_cons, List.mem_cons, not_or] at h
    have ht : m.extend r t k = r k := m.extend_of_ne r t h.1
    calc m.extendAll (t :: ts) r k
      _ = m.extendAll ts (m.extend r t) k := rfl
      _ = m.extend r t k := ih (m.extend r t) h.2
      _ = r k := ht

theorem accepts_extendAll_of_notMem {ts : List Transform} {f : RowFilter} (r : Columns V)
    (h : f.fid ∉ ts.map Transform.key) : m.accepts (m.extendAll ts r) f = m.accepts r f := by
  rw [accepts, accepts, m.extendAll_of_notMem r h]

/-- If the computed value is the same in every row, a column that is set has that value. -/
theorem extendAll_of_const {g : String → V} (hg : ∀ t vs, m.compute t vs = g t.key)
    (ts : List Transform) (r : Columns V) (k : String) :
    m.extendAll ts r k = if k ∈ ts.map Transform.key then some (g k) else r k := by
  induction ts generalizing r with
  | nil => simp [extendAll]
  | cons t ts ih =>
    have hcons : m.extendAll (t :: ts) r k = m.extendAll ts (m.extend r t) k := rfl
    rw [hcons, ih]
    by_cases hk : k ∈ ts.map Transform.key
    · simp [hk]
    · by_cases ht : k = t.key
      · subst ht
        simp [hk, extend, hg]
      · simp [hk, ht, m.extend_of_ne r t ht]

theorem run_append (steps steps' : List Step) (rows : List (Columns V)) :
    m.run (steps ++ steps') rows = m.run steps' (m.run steps rows) :=
  List.foldl_append

/-- It makes no difference that steps that do nothing are left out. -/
theorem run_kept (s : Step) (rows : List (Columns V)) : m.run s.kept rows = m.runStep rows s := by
  cases h : s.isEmpty with
  | false =>
    rw [Step.kept_of_not_isEmpty h]
    rfl
  | true =>
    rw [Step.kept_of_isEmpty h]
    cases s with
    | filter filters =>
      have hf : filters = [] := List.isEmpty_iff.1 h
      subst hf
      exact (List.filter_eq_self.2 fun _ _ => rfl).symm
    | transform fields =>
      have hf : fields = [] := List.isEmpty_iff.1 h
      subst hf
      exact (List.map_id rows).symm
    | view queries => rfl
    | sort keys direction => rfl

theorem run_prepared (raw : List RowFilter) (ts : List Transform) (computed : List RowFilter)
    (rows : List (Columns V)) : m.run (Plan.prepared raw ts computed) rows
      = ((rows.filter (m.acceptsAll raw)).map (m.extendAll ts)).filter (m.acceptsAll computed) := by
  rw [Plan.prepared, run_append, run_append, run_kept, run_kept, run_kept]
  rfl

theorem viewRows_of_isLaidOut {p : Plan} {raw computed : List RowFilter} {ts : List Transform}
    (h : p.IsLaidOut raw ts computed) (rows : List (Columns V)) : m.viewRows p rows
      = ((rows.filter (m.acceptsAll raw)).map (m.extendAll ts)).filter (m.acceptsAll computed) := by
  obtain ⟨queries, rest, _, hp⟩ := h
  have hkind : ∀ s ∈ Plan.prepared raw ts computed, (s.kind != .view) = true := by
    intro s hs
    simp only [Plan.prepared, List.mem_append, Step.mem_kept] at hs
    rcases hs with (⟨rfl, _⟩ | ⟨rfl, _⟩) | ⟨rfl, _⟩ <;> rfl
  have htake : p.steps.takeWhile (·.kind != .view) = Plan.prepared raw ts computed := by
    rw [hp, List.takeWhile_append_of_pos hkind]
    exact List.append_nil _
  rw [viewRows, htake, run_prepared]

end Meaning

end ChartQuery
