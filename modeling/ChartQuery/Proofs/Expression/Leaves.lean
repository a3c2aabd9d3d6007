import ChartQuery.Expression.Basic
import Mathlib.Tactic.Common

namespace ChartQuery

/-- A number is finite; the other values have none. -/
def Literal.IsFinite : Literal → Prop
  | number x => x.isFinite = true
  | _ => True

def PaintMap.IsFinite (m : PaintMap) : Prop :=
  (m.domainX.1.isFinite = true ∧ m.domainX.2.isFinite = true) ∧
    m.domainY.1.isFinite = true ∧ m.domainY.2.isFinite = true

mutual

/-- The parameters of an expression and of all that are nested in it, in place of which they
stand. -/
def Expression.leaves : Expression → List Param
  | ⟨_, params, _⟩ => Param.leavesIn params

def Param.leaves : Param → List Param
  | .expression e => e.leaves
  | p => [p]

def Param.leavesIn : List Param → List Param
  | [] => []
  | p :: params => p.leaves ++ Param.leavesIn params

end

namespace Param

def IsFinite : Param → Prop
  | .value l | .constant l => l.IsFinite
  | .map m => m.IsFinite
  | _ => True

/-- True unless the parameter is a map with a legend. -/
def IsPlain : Param → Prop
  | .map m => m.legend.entries = []
  | _ => True

end Param

/-- All numbers in an expression are finite. -/
def Expression.IsFinite (e : Expression) : Prop := ∀ p ∈ e.leaves, p.IsFinite

/-- No map in an expression has a legend. -/
def Expression.IsPlain (e : Expression) : Prop := ∀ p ∈ e.leaves, p.IsPlain

theorem Param.leavesIn_eq_flatMap (params : List Param) :
    leavesIn params = params.flatMap leaves := by
  induction params with
  | nil => rfl
  | cons p params ih => rw [leavesIn, ih, List.flatMap_cons]

namespace Expression

theorem isFinite_iff {e : Expression} :
    e.IsFinite ↔ ∀ p ∈ e.params, ∀ q ∈ p.leaves, q.IsFinite := by
  cases e
  rw [IsFinite, leaves, Param.leavesIn_eq_flatMap, List.forall_mem_flatMap]

theorem forall_leaves_compactParam_isFinite {p : Param} (h : ∀ q ∈ p.leaves, q.IsFinite) :
    ∀ q ∈ (compactParam p).leaves, q.IsFinite := by
  cases p with
  | map m =>
    simpa [compactParam, Param.leaves, Param.IsFinite, PaintMap.IsFinite, PaintMap.compact]
      using h
  | _ => exact h

/-- Compacting a map keeps its domains. -/
theorem IsFinite.normalize {e : Expression} (h : e.IsFinite) : e.normalize.IsFinite := by
  rw [Expression.normalize]
  split
  · rw [isFinite_iff] at h ⊢
    rw [List.forall_mem_map]
    exact fun p hp => forall_leaves_compactParam_isFinite (h p hp)
  · exact h

end Expression

end ChartQuery
