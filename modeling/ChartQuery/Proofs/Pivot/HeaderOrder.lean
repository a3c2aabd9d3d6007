import ChartQuery.Proofs.Pivot.Headers
import Mathlib.Data.List.Forall2

namespace ChartQuery

namespace HeaderValue

theorem cmp_eq_swap (v w : HeaderValue) : v.cmp w = (w.cmp v).swap := by
  cases v <;> cases w <;> simp only [cmp, Ordering.swap_eq, Ordering.swap_lt, Ordering.swap_gt]
  case number.number x y => exact Std.OrientedCmp.eq_swap
  case text.text s t => exact Std.OrientedCmp.eq_swap
  case boolean.boolean a b => exact Std.OrientedCmp.eq_swap

theorem isLE_cmp_trans {u v w : HeaderValue} (h : (u.cmp v).isLE = true)
    (k : (v.cmp w).isLE = true) : (u.cmp w).isLE = true := by
  cases u <;> cases v <;> cases w <;> simp [cmp] at h k ⊢
  case number.number.number x y z => exact Std.TransCmp.isLE_trans h k
  case text.text.text s t u => exact Std.TransCmp.isLE_trans h k
  case boolean.boolean.boolean a b c => exact Std.TransCmp.isLE_trans h k

instance : Std.TransCmp cmp where
  eq_swap := cmp_eq_swap _ _
  isLE_trans := isLE_cmp_trans

theorem cmp_eq_eq_iff {v w : HeaderValue} : v.cmp w = .eq ↔ (v == w) = true := by
  cases v <;> cases w <;> simp [cmp, beq_def, eqv, Binary64.same_iff]
  case boolean.boolean a b => cases a <;> cases b <;> simp

theorem beq_eq_false_of_cmp_eq_lt {v w : HeaderValue} (h : v.cmp w = .lt) :
    (v == w) = false := by
  cases hb : v == w with
  | false => rfl
  | true =>
    rw [cmp_eq_eq_iff.mpr hb] at h
    contradiction

/-- Strictly ascending lists. -/
def IsAscending (vs : List HeaderValue) : Prop := vs.Pairwise fun v w => v.cmp w = .lt

theorem IsAscending.insert {vs : List HeaderValue} (h : IsAscending vs) (v : HeaderValue) :
    IsAscending (insert v vs) := by
  induction vs with
  | nil => exact List.pairwise_singleton ..
  | cons w ws ih =>
    obtain ⟨hw, hws⟩ := List.pairwise_cons.mp h
    unfold HeaderValue.insert
    split
    case h_1 hlt =>
      refine List.pairwise_cons.mpr ⟨fun u hu => ?_, h⟩
      rcases List.mem_cons.mp hu with rfl | hu
      · exact hlt
      · exact Std.TransCmp.lt_trans hlt (hw u hu)
    case h_2 => exact h
    case h_3 hgt =>
      refine List.pairwise_cons.mpr ⟨fun u hu => ?_, ih hws⟩
      rcases mem_of_mem_insert hu with rfl | hu
      · exact Std.OrientedCmp.lt_of_gt hgt
      · exact hw u hu

theorem isAscending_ascending (vs : List HeaderValue) : IsAscending (ascending vs) := by
  suffices h : ∀ ws, IsAscending ws → IsAscending (vs.foldl (fun ws v => insert v ws) ws) from
    h [] .nil
  induction vs with
  | nil => exact fun ws h => h
  | cons v vs ih => exact fun ws h => ih _ (h.insert v)

theorem subset_insert (v : HeaderValue) (ws : List HeaderValue) : ws ⊆ insert v ws := by
  induction ws with
  | nil => exact List.nil_subset _
  | cons w ws ih =>
    unfold insert
    split
    · exact List.subset_cons_self ..
    · exact List.Subset.refl _
    · exact List.cons_subset_cons w ih

theorem exists_beq_insert (v : HeaderValue) (ws : List HeaderValue) :
    ∃ w ∈ insert v ws, (w == v) = true := by
  induction ws with
  | nil => exact ⟨v, by simp [insert], BEq.rfl⟩
  | cons w ws ih =>
    unfold insert
    split
    case h_1 => exact ⟨v, by simp, BEq.rfl⟩
    case h_2 heq => exact ⟨w, by simp, BEq.symm (cmp_eq_eq_iff.mp heq)⟩
    case h_3 =>
      obtain ⟨u, hu, he⟩ := ih
      exact ⟨u, List.mem_cons_of_mem w hu, he⟩

/-- Each value has an equal one on the level. -/
theorem exists_beq_ascending {vs : List HeaderValue} {v : HeaderValue} (h : v ∈ vs) :
    ∃ w ∈ ascending vs, (w == v) = true := by
  suffices hk : ∀ ws, (v ∈ vs ∨ ∃ w ∈ ws, (w == v) = true) →
      ∃ w ∈ vs.foldl (fun ws v => insert v ws) ws, (w == v) = true from hk [] (.inl h)
  clear h
  induction vs with
  | nil => simp
  | cons u us ih =>
    intro ws h
    apply ih
    rcases h with h | ⟨w, hw, he⟩
    · rcases List.mem_cons.mp h with rfl | h
      · exact .inr (exists_beq_insert v ws)
      · exact .inl h
    · exact .inr ⟨w, subset_insert u ws hw, he⟩

/-- Of the values of an ascending list at most one is equal to a given one. -/
theorem IsAscending.countP_beq {vs : List HeaderValue} (h : IsAscending vs) {v w : HeaderValue}
    (hw : w ∈ vs) (he : (w == v) = true) : vs.countP (· == v) = 1 := by
  induction vs with
  | nil => simp at hw
  | cons u us ih =>
    obtain ⟨hu, hus⟩ := List.pairwise_cons.mp h
    rcases List.mem_cons.mp hw with rfl | hw
    · have hrest : us.countP (· == v) = 0 := by
        refine List.countP_eq_zero.mpr fun x hx hxv => ?_
        have hn := beq_eq_false_of_cmp_eq_lt (hu x hx)
        rw [BEq.trans he (BEq.symm hxv)] at hn
        contradiction
      simp [he, hrest]
    · have hne : (u == v) = false := by
        rw [← BEq.congr_right he]
        exact beq_eq_false_of_cmp_eq_lt (hu w hw)
      simp [hne, ih hus hw]

/-- The values of one list have equal ones in another. -/
def Within (vs ws : List HeaderValue) : Prop := ∀ v ∈ vs, ∃ w ∈ ws, (w == v) = true

theorem IsAscending.within_tail {v w : HeaderValue} {vs ws : List HeaderValue}
    (h : IsAscending (v :: vs)) (hvw : (v == w) = true) (hw : Within (v :: vs) (w :: ws)) :
    Within vs ws := by
  intro x hx
  obtain ⟨y, hy, he⟩ := hw x (List.mem_cons_of_mem v hx)
  rcases List.mem_cons.mp hy with rfl | hy
  · have hn := beq_eq_false_of_cmp_eq_lt ((List.pairwise_cons.mp h).1 x hx)
    rw [BEq.trans hvw he] at hn
    contradiction
  · exact ⟨y, hy, he⟩

theorem IsAscending.not_lt_of_within {v w : HeaderValue} {vs ws : List HeaderValue}
    (h : IsAscending (w :: ws)) (hw : Within (v :: vs) (w :: ws)) : v.cmp w ≠ .lt := by
  intro hlt
  obtain ⟨y, hy, he⟩ := hw v List.mem_cons_self
  have hvy : v.cmp y = .lt := by
    rcases List.mem_cons.mp hy with rfl | hy
    · exact hlt
    · exact Std.TransCmp.lt_trans hlt ((List.pairwise_cons.mp h).1 y hy)
  have hn := beq_eq_false_of_cmp_eq_lt hvy
  rw [BEq.symm he] at hn
  contradiction

/-- Ascending lists with the same values agree place by place. -/
theorem IsAscending.forall₂_beq {vs ws : List HeaderValue} (hv : IsAscending vs)
    (hw : IsAscending ws) (hvw : Within vs ws) (hwv : Within ws vs) :
    List.Forall₂ (fun v w => (v == w) = true) vs ws := by
  induction vs generalizing ws with
  | nil =>
    cases ws with
    | nil => exact .nil
    | cons w ws => simpa using hwv w List.mem_cons_self
  | cons v vs ih =>
    cases ws with
    | nil => simpa using hvw v List.mem_cons_self
    | cons w ws =>
      have he : (v == w) = true := by
        cases hc : v.cmp w with
        | lt => exact absurd hc (hw.not_lt_of_within hvw)
        | eq => exact cmp_eq_eq_iff.mp hc
        | gt => exact absurd (Std.OrientedCmp.lt_of_gt hc) (hv.not_lt_of_within hwv)
      exact .cons he (ih (List.pairwise_cons.mp hv).2 (List.pairwise_cons.mp hw).2
        (hv.within_tail he hvw) (hw.within_tail (BEq.symm he) hwv))

theorem forall₂_ascending_of_perm {vs ws : List HeaderValue} (h : vs.Perm ws) :
    List.Forall₂ (fun v w => (v == w) = true) (ascending vs) (ascending ws) := by
  apply (isAscending_ascending vs).forall₂_beq (isAscending_ascending ws)
  · intro v hv
    have hmem : v ∈ ws := h.mem_iff.mp (mem_of_mem_ascending hv)
    exact exists_beq_ascending hmem
  · intro w hw
    have hmem : w ∈ vs := h.mem_iff.mpr (mem_of_mem_ascending hw)
    exact exists_beq_ascending hmem

end HeaderValue

end ChartQuery
