import ChartQuery.Proofs.Plan.GraftLaws
import ChartQuery.Proofs.Plan.Meaning
import Mathlib.Data.List.Forall2
import Mathlib.Logic.Function.DependsOn

namespace ChartQuery

/-- What the entries of a plan do to a row. A filter step may be any test of the columns that it
filters by, and a transform may set its column to any function of those that it reads. -/
structure Interpretation (V : Type) where
  keeps : List RowFilter → Columns V → Bool
  value : Transform → Columns V → Option V
  keeps_dependsOn : ∀ filters, DependsOn (keeps filters) {k | k ∈ filters.map RowFilter.fid}
  value_dependsOn : ∀ t, DependsOn (value t) {k | k ∈ t.references}

namespace Interpretation

variable {V : Type} (i : Interpretation V)

def extend (r : Columns V) (t : Transform) : Columns V := Function.update r t.key (i.value t r)

def extendAll (ts : List Transform) (r : Columns V) : Columns V := ts.foldl i.extend r

def runStep (rows : List (Columns V)) : Step → List (Columns V)
  | .filter filters => rows.filter (i.keeps filters)
  | .transform fields => rows.map (i.extendAll fields)
  | .view _ | .sort .. => rows

def run (steps : List Step) (rows : List (Columns V)) : List (Columns V) :=
  steps.foldl i.runStep rows

/-- The rows that reach the first view step. -/
def viewRows (p : Plan) (rows : List (Columns V)) : List (Columns V) :=
  i.run (p.steps.takeWhile (·.kind != .view)) rows

end Interpretation

namespace Meaning

variable {V : Type} (m : Meaning V)

/-- The conditions of a filter step hold each of its own column. -/
def interpretation : Interpretation V where
  keeps := m.acceptsAll
  value t r := some (m.compute t (t.references.map r))
  keeps_dependsOn filters r r' h := by
    have hsame : ∀ f ∈ filters, m.accepts r f = m.accepts r' f := by
      intro f hf
      rw [accepts, accepts, h f.fid (List.mem_map_of_mem hf)]
    rw [acceptsAll, acceptsAll, Bool.eq_iff_iff, List.all_eq_true, List.all_eq_true]
    exact forall₂_congr fun f hf => by rw [hsame f hf]
  value_dependsOn t r r' h := by
    have hread : t.references.map r = t.references.map r' := List.map_congr_left h
    exact congrArg (fun vs => some (m.compute t vs)) hread

theorem viewRows_interpretation (p : Plan) (rows : List (Columns V)) :
    m.interpretation.viewRows p rows = m.viewRows p rows := by
  have hstep : m.interpretation.runStep = m.runStep := by
    funext rows s
    cases s <;> rfl
  rw [Interpretation.viewRows, Interpretation.run, hstep]
  rfl

end Meaning

/-- The rows have the same values in all columns but the given ones. -/
def Columns.EqExcept {V : Type} (keys : List String) (r r' : Columns V) : Prop :=
  ∀ k, k ∉ keys → r k = r' k

/-- No filter of the step is on one of the keys, and no transform of it reads one. -/
structure Step.Ignores (keys : List String) (s : Step) : Prop where
  filters : ∀ f ∈ s.filters, f.fid ∉ keys
  references : ∀ t ∈ s.transforms, ∀ fid ∈ t.references, fid ∉ keys

def Plan.Ignores (keys : List String) (p : Plan) : Prop := ∀ s ∈ p.steps, s.Ignores keys

namespace Interpretation

open Columns (EqExcept)

variable {V : Type} {i : Interpretation V} {keys : List String} {r r' : Columns V}
  {rows rows' : List (Columns V)}

theorem keeps_eq {filters : List RowFilter} (h : ∀ f ∈ filters, f.fid ∉ keys)
    (hr : EqExcept keys r r') : i.keeps filters r = i.keeps filters r' := by
  apply i.keeps_dependsOn filters
  intro k hk
  obtain ⟨f, hf, rfl⟩ := List.mem_map.1 hk
  exact hr f.fid (h f hf)

/-- Where a transform reads the same, it sets the same. -/
theorem extend_eqExcept {t : Transform} (h : ∀ fid ∈ t.references, fid ∉ keys)
    (hr : EqExcept keys r r') : EqExcept keys (i.extend r t) (i.extend r' t) := by
  have hvalue : i.value t r = i.value t r' :=
    i.value_dependsOn t fun fid hfid => hr fid (h fid hfid)
  intro k hk
  rw [extend, extend, hvalue]
  by_cases hkey : k = t.key
  · rw [hkey, Function.update_self, Function.update_self]
  · rw [Function.update_of_ne hkey, Function.update_of_ne hkey, hr k hk]

theorem extendAll_eqExcept {ts : List Transform}
    (h : ∀ t ∈ ts, ∀ fid ∈ t.references, fid ∉ keys) (hr : EqExcept keys r r') :
    EqExcept keys (i.extendAll ts r) (i.extendAll ts r') := by
  induction ts generalizing r r' with
  | nil => exact hr
  | cons t ts ih =>
    rw [List.forall_mem_cons] at h
    exact ih h.2 (extend_eqExcept h.1 hr)

/-- Transforms set no columns but their own. -/
theorem extendAll_eqExcept_self {ts : List Transform} (h : ∀ t ∈ ts, t.key ∈ keys)
    (r : Columns V) : EqExcept keys (i.extendAll ts r) r := by
  induction ts generalizing r with
  | nil => exact fun _ _ => rfl
  | cons t ts ih =>
    rw [List.forall_mem_cons] at h
    intro k hk
    have hkey : k ≠ t.key := fun he => hk (he ▸ h.1)
    calc i.extendAll (t :: ts) r k
      _ = i.extend r t k := ih h.2 (i.extend r t) k hk
      _ = r k := Function.update_of_ne hkey _ _

theorem runStep_eqExcept {s : Step} (hs : s.Ignores keys)
    (hrows : List.Forall₂ (EqExcept keys) rows rows') :
    List.Forall₂ (EqExcept keys) (i.runStep rows s) (i.runStep rows' s) := by
  cases s with
  | filter filters =>
    refine List.rel_filter ?_ hrows
    intro r r' hr
    exact Bool.eq_iff_iff.1 (keeps_eq hs.filters hr)
  | transform fields =>
    refine List.rel_map ?_ hrows
    intro r r' hr
    exact extendAll_eqExcept hs.references hr
  | view queries => exact hrows
  | sort columns direction => exact hrows

theorem run_eqExcept {steps : List Step} (hsteps : ∀ s ∈ steps, s.Ignores keys)
    (hrows : List.Forall₂ (EqExcept keys) rows rows') :
    List.Forall₂ (EqExcept keys) (i.run steps rows) (i.run steps rows') := by
  induction steps generalizing rows rows' with
  | nil => exact hrows
  | cons s steps ih =>
    rw [List.forall_mem_cons] at hsteps
    exact ih hsteps.2 (runStep_eqExcept hsteps.1 hrows)

/-- Transforms that are appended set their columns after all that the step does. -/
theorem runStep_append_eqExcept {fields more : List Transform}
    (hs : (Step.transform fields).Ignores keys) (hmore : ∀ t ∈ more, t.key ∈ keys)
    (hrows : List.Forall₂ (EqExcept keys) rows rows') :
    List.Forall₂ (EqExcept keys) (i.runStep rows (.transform (fields ++ more)))
      (i.runStep rows' (.transform fields)) := by
  refine List.rel_map ?_ hrows
  intro r r' hr k hk
  calc i.extendAll (fields ++ more) r k
    _ = i.extendAll more (i.extendAll fields r) k := by rw [extendAll, List.foldl_append]; rfl
    _ = i.extendAll fields r k := extendAll_eqExcept_self hmore _ k hk
    _ = i.extendAll fields r' k := extendAll_eqExcept hs.references hr k hk

theorem forall₂_eqExcept_refl (keys : List String) (rows : List (Columns V)) :
    List.Forall₂ (EqExcept keys) rows rows :=
  List.forall₂_same.2 fun _ _ _ _ => rfl

theorem run_append (steps steps' : List Step) (rows : List (Columns V)) :
    i.run (steps ++ steps') rows = i.run steps' (i.run steps rows) :=
  List.foldl_append

/-- Transforms in front of a plan that ignores their columns. -/
theorem viewRows_cons_eqExcept {p : Plan} {more : List Transform} (hp : p.Ignores keys)
    (hmore : ∀ t ∈ more, t.key ∈ keys) (rows : List (Columns V)) :
    List.Forall₂ (EqExcept keys) (i.viewRows ⟨.transform more :: p.steps, p.limit⟩ rows)
      (i.viewRows p rows) := by
  have hahead : ∀ s ∈ p.steps.takeWhile (·.kind != .view), s.Ignores keys :=
    fun s hs => hp s (List.takeWhile_subset _ hs)
  have hfirst : List.Forall₂ (EqExcept keys) (rows.map (i.extendAll more)) rows :=
    List.forall₂_map_left_iff.2 (List.forall₂_same.2 fun r _ => extendAll_eqExcept_self hmore r)
  exact run_eqExcept hahead hfirst

/-- Transforms behind those of a step of a plan that ignores their columns. If the step comes after
the query, they make no difference at all. -/
theorem viewRows_append_eqExcept {before after : List Step} {fields more : List Transform}
    {limit : Option UInt64}
    (hp : Plan.Ignores keys ⟨before ++ .transform fields :: after, limit⟩)
    (hmore : ∀ t ∈ more, t.key ∈ keys) (rows : List (Columns V)) :
    List.Forall₂ (EqExcept keys)
      (i.viewRows ⟨before ++ .transform (fields ++ more) :: after, limit⟩ rows)
      (i.viewRows ⟨before ++ .transform fields :: after, limit⟩ rows) := by
  have hahead : ∀ ts, (before ++ .transform ts :: after).takeWhile (·.kind != .view) =
      if (before.takeWhile (·.kind != .view)).length = before.length then
        before ++ .transform ts :: after.takeWhile (·.kind != .view)
      else before.takeWhile (·.kind != .view) := by
    intro ts
    rw [List.takeWhile_append, List.takeWhile_cons_of_pos rfl]
  rw [viewRows, viewRows, hahead, hahead]
  split
  · have hs : (Step.transform fields).Ignores keys := hp _ (by simp)
    have hafter : ∀ s ∈ after.takeWhile (·.kind != .view), s.Ignores keys := by
      intro s hs
      exact hp s (by simp [List.takeWhile_subset _ hs])
    rw [run_append, run_append]
    exact run_eqExcept hafter
      (runStep_append_eqExcept hs hmore (forall₂_eqExcept_refl keys (i.run before rows)))
  · exact forall₂_eqExcept_refl keys _

theorem viewRows_withTransforms_eqExcept {p : Plan}
    {extra : List Transform} (h : p.Ignores (extra.map Transform.key))
    (rows : List (Columns V)) :
    List.Forall₂ (EqExcept (extra.map Transform.key)) (i.viewRows (p.withTransforms extra) rows)
      (i.viewRows p rows) := by
  by_cases he : extra = []
  · rw [he, Plan.withTransforms_nil]
    exact forall₂_eqExcept_refl _ _
  have hkeys : ∀ t ∈ distinctBy Transform.key extra, t.key ∈ extra.map Transform.key :=
    fun t ht => List.mem_map_of_mem (mem_of_mem_distinctBy ht)
  rw [p.withTransforms_eq he]
  rcases Plan.graft_cases (Plan.changesOnly_appendTransforms (distinctBy Transform.key extra))
    (.transform (distinctBy Transform.key extra)) p.steps with
      ⟨_, hg⟩ | ⟨before, s, t, after, hp, hg, _, hst⟩
  · rw [hg]
    exact viewRows_cons_eqExcept h hkeys rows
  · obtain ⟨fields, rfl, rfl⟩ := Plan.exists_of_appendTransforms hst
    obtain ⟨steps, limit⟩ := p
    cases hp
    rw [hg]
    exact viewRows_append_eqExcept h (fun t ht => hkeys t (List.mem_filter.1 ht).1) rows

/-- A plan that ignores the columns of more transforms gets them all, which makes no difference to
the rows that reach the queries but in these columns, be they set before or not. -/
theorem withTransforms_conservative (i : Interpretation V) {p : Plan} {extra : List Transform}
    (h : p.Ignores (extra.map Transform.key)) :
    (∀ t ∈ extra, ∃ u ∈ (p.withTransforms extra).transforms, u.key = t.key) ∧
      ∀ rows, List.Forall₂ (EqExcept (extra.map Transform.key))
        (i.viewRows (p.withTransforms extra) rows) (i.viewRows p rows) :=
  ⟨fun _ ht => p.exists_key_withTransforms ht, viewRows_withTransforms_eqExcept h⟩

end Interpretation

section Flags

/-- A reading in which columns are flags: a condition asks for a set one, and a transform is set if
all that it reads is. -/
def flags : Meaning Bool where
  holds _ x := x == some true
  compute _ vs := vs.all (· == some true)

def sumOf (key : String) (fids : List String) : Transform :=
  ⟨key, ⟨"+", fids.map .field, key⟩⟩

/-- Sums, with filters ahead of them, between them and behind the query. -/
def sumsPlan : Plan where
  steps := [.filter [⟨"cost", .oneOf [.bool true]⟩], .transform [sumOf "total" ["cost", "tax"]],
    .filter [⟨"total", .oneOf [.bool true]⟩], .transform [sumOf "twice" ["total", "total"]],
    .view [.raw ["twice"]], .filter [⟨"tax", .oneOf [.bool true]⟩]]
  limit := none

/-- A sum that reads one of the plan, a second one for the same column, and one that reads the
first. -/
def moreSums : List Transform :=
  [sumOf "net" ["total", "refund"], sumOf "net" ["cost"], sumOf "paid" ["net", "tip"]]

/-- All flags of the row are set but one. -/
def rowWithout (fid : String) : Columns Bool := fun k => some (k != fid)

/-- Of two rows one is kept, with the new columns and without them. -/
theorem viewRows_moreSums : sumsPlan.Ignores (moreSums.map Transform.key) ∧
    (flags.viewRows sumsPlan [rowWithout "refund", rowWithout "tax"]).length = 1 ∧
    List.Forall₂ (Columns.EqExcept (moreSums.map Transform.key))
      (flags.viewRows (sumsPlan.withTransforms moreSums) [rowWithout "refund", rowWithout "tax"])
      (flags.viewRows sumsPlan [rowWithout "refund", rowWithout "tax"]) := by
  have hignores : sumsPlan.Ignores (moreSums.map Transform.key) := by
    intro s hs
    constructor
    · revert s
      decide
    · revert s
      decide
  refine ⟨hignores, by decide, ?_⟩
  rw [← flags.viewRows_interpretation, ← flags.viewRows_interpretation]
  exact (flags.interpretation.withTransforms_conservative hignores).2 _

end Flags

end ChartQuery
