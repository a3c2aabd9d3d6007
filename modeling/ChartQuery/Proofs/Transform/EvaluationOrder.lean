import ChartQuery.Proofs.Transform.Placement
import Mathlib.Data.List.Lex
import Mathlib.Order.Bounds.Defs

namespace ChartQuery.Transform

/-- Each position comes after those that it reads, as far as they had to wait. -/
def IsSequential (reads : Nat → List Nat) (waiting order : List Nat) : Prop :=
  ∀ before i after, order = before ++ i :: after → ∀ j ∈ reads i, j ∈ waiting → j ∈ before

section Place

variable {reads : Nat → List Nat} {waiting other : List Nat} {i : Nat}

theorem IsSequential.pending_head {rest : List Nat}
    (h : IsSequential reads waiting (i :: rest)) : pending reads waiting i = 0 := by
  rw [pending_eq_zero_iff]
  intro j hj hw
  exact List.not_mem_nil (h [] i rest rfl j hj hw)

theorem IsSequential.tail {rest : List Nat} (hw : waiting.Nodup)
    (h : IsSequential reads waiting (i :: rest)) : IsSequential reads (waiting.erase i) rest := by
  intro before k after hsplit j hj hleft
  obtain ⟨hne, hwaiting⟩ := hw.mem_erase_iff.1 hleft
  have hbefore : j ∈ i :: before := h (i :: before) k after (by rw [hsplit]; rfl) j hj hwaiting
  exact (List.mem_cons.1 hbefore).resolve_left hne

/-- No other order of the same positions is less: at the first place where the two differ, the
other one has a position that was ready, too, and the least of these was taken. -/
theorem place_le (hw : waiting.Pairwise (· < ·)) (hperm : other.Perm (place reads waiting).1)
    (hother : IsSequential reads waiting other) : (place reads waiting).1 ≤ other := by
  fun_induction place reads waiting generalizing other with
  | case1 waiting i hfind order stuck hplace ih =>
    rw [hplace] at ih
    obtain ⟨⟨hi, _⟩, hleast⟩ := (find?_pending_eq_some_iff hw).1 hfind
    have horder : ∀ k ∈ i :: order, k ∈ waiting := by
      intro k hk
      rcases List.mem_cons.1 hk with rfl | hk
      · exact hi
      · have hall := (place_perm reads (waiting.erase i)).subset
        rw [hplace] at hall
        exact List.mem_of_mem_erase (hall (List.mem_append_left stuck hk))
    cases other with
    | nil =>
      have hlength := hperm.length_eq
      simp at hlength
    | cons k rest =>
      have hk : k ∈ waiting := horder k (hperm.subset List.mem_cons_self)
      have hle : i ≤ k := hleast k hk hother.pending_head
      rcases Nat.lt_or_eq_of_le hle with hlt | heq
      · exact le_of_lt (List.Lex.rel hlt)
      · subst heq
        have hnodup : waiting.Nodup := hw.imp Nat.ne_of_lt
        exact List.cons_le_cons i (ih (hw.erase i) hperm.cons_inv (hother.tail hnodup))
  | case2 waiting hfind => exact le_of_eq (List.perm_nil.1 hperm).symm

/-- Positions that are in order already stay as they are. -/
theorem place_of_isSequential (hw : waiting.Nodup) (h : IsSequential reads waiting waiting) :
    place reads waiting = (waiting, []) := by
  induction waiting with
  | nil => exact place_of_find?_eq_none rfl
  | cons i rest ih =>
    have hfind : (i :: rest).find? (fun k => pending reads (i :: rest) k == 0) = some i :=
      List.find?_cons_of_pos (beq_iff_eq.2 h.pending_head)
    have hrest := h.tail hw
    rw [List.erase_cons_head] at hrest
    rw [place_of_find?_eq_some hfind, List.erase_cons_head, ih (List.nodup_cons.1 hw).2 hrest]

end Place

/-- All of these positions, each one once and after those that it reads. -/
structure IsEvaluationOrder (ts : List Transform) (all order : List Nat) : Prop where
  perm : order.Perm all
  reads_before : ∀ before i after, order = before ++ i :: after →
    ∀ j, Reads ts i j → j ∈ before

section Order

variable {ts : List Transform} {all order : List Nat}

theorem IsEvaluationOrder.isSequential (h : IsEvaluationOrder ts all order) (waiting : List Nat) :
    IsSequential (readsOf (precedents ts).toArray) waiting order := by
  intro before i after hsplit j hj _
  exact h.reads_before before i after hsplit j (mem_precedents_iff.1 hj)

/-- What is placed is in the least order that there is. -/
theorem isLeast_placed (hall : (placement ts).1.Perm all) :
    IsLeast {order | IsEvaluationOrder ts all order} (placement ts).1 := by
  constructor
  · exact ⟨hall, fun before i after hsplit j hr => mem_before_of_placement hsplit hr⟩
  · intro order horder
    have hperm : order.Perm (placement ts).1 := horder.perm.trans hall.symm
    rw [placement_eq_place] at hperm ⊢
    exact place_le List.pairwise_lt_range hperm (horder.isSequential _)

theorem placement_of_isEvaluationOrder
    (h : IsEvaluationOrder ts (List.range ts.length) (List.range ts.length)) :
    placement ts = (List.range ts.length, []) := by
  rw [placement_eq_place]
  exact place_of_isSequential List.nodup_range (h.isSequential _)

/-- Without a circle all are placed. -/
theorem placed_perm (h : ¬ IsCircular ts) : (placement ts).1.Perm (List.range ts.length) := by
  have hperm := placement_perm ts
  rwa [stuck_eq_nil_iff.2 h, List.append_nil] at hperm

theorem order_keep_eq_order_reject (h : ¬ IsCircular ts) :
    Transform.order .keep ts = Transform.order .reject ts := by
  have hnone := stuck_eq_nil_iff.2 h
  simp [Transform.order, hnone]

open Classical in
/-- The placed positions are those that lead to no circle. -/
theorem placed_perm_filter (ts : List Transform) :
    (placement ts).1.Perm ((List.range ts.length).filter (¬ ReachesCircle ts ·)) := by
  have hperm := placement_perm ts
  have hnodup : ((placement ts).1 ++ (placement ts).2).Nodup :=
    hperm.nodup_iff.2 List.nodup_range
  rw [List.nodup_append] at hnodup
  rw [List.perm_ext_iff_of_nodup hnodup.1 (List.nodup_range.filter _)]
  intro i
  rw [List.mem_filter, ← hperm.mem_iff, decide_eq_true_iff, ← mem_stuck_iff, List.mem_append]
  constructor
  · intro hi
    exact ⟨.inl hi, fun hstuck => hnodup.2.2 i hi i hstuck rfl⟩
  · rintro ⟨hi, hnot⟩
    exact hi.resolve_right hnot

open Classical in
theorem stuck_eq_filter (ts : List Transform) :
    (placement ts).2 = (List.range ts.length).filter (ReachesCircle ts ·) := by
  have hascending : (placement ts).2.Pairwise (· < ·) := List.pairwise_lt_range.filter _
  apply hascending.eq_of_mem_iff (List.pairwise_lt_range.filter _)
  intro i
  rw [mem_stuck_iff, List.mem_filter, List.mem_range, decide_eq_true_iff]
  constructor
  · intro h
    exact ⟨h.lt_length, h⟩
  · rintro ⟨-, h⟩
    exact h

end Order

/-- An order exists unless there is a circle, and then the least one is found; the counts behind
it never fall below zero. -/
theorem order_reject_isLeast (ts : List Transform) :
    ((∃ out, order .reject ts = .ok out) ↔ ¬ IsCircular ts) ∧
    (∀ out, order .reject ts = .ok out → out.Perm ts ∧ ∃ positions, out = select ts positions ∧
      IsLeast {is | IsEvaluationOrder ts (List.range ts.length) is} positions) ∧
    (IsEvaluationOrder ts (List.range ts.length) (List.range ts.length) →
      order .reject ts = .ok ts) ∧
    ∀ c, Relation.ReflTransGen (Countdown.Step (readersOf (precedents ts).toArray))
      (Countdown.start ((precedents ts).map List.length)) c →
      c.LowersPositive (readersOf (precedents ts).toArray) := by
  refine ⟨order_reject_isOk_iff, ?_, ?_, ?_⟩
  · intro out hout
    obtain ⟨hacyclic, hplaced⟩ := order_reject_eq_ok_iff.1 hout
    exact ⟨order_perm hout, (placement ts).1, hplaced, isLeast_placed (placed_perm hacyclic)⟩
  · intro hvalid
    have hplacement := placement_of_isEvaluationOrder hvalid
    rw [order, hplacement]
    simp [select_range]
  · intro c hsteps
    obtain ⟨left, hleft⟩ :=
      (tallies_precedents ts).of_steps (readsOf_precedents_nodup ts) hsteps
    exact hleft.lowersPositive

open Classical in
/-- If circles are kept, what leads to one comes last and as in the input, behind the least order
of all the rest. -/
theorem order_keep_parts (ts : List Transform) :
    (∃ free stuck, order .keep ts = .ok (select ts (free ++ stuck)) ∧
      (free ++ stuck).Perm (List.range ts.length) ∧
      IsLeast {is | IsEvaluationOrder ts
        ((List.range ts.length).filter (¬ ReachesCircle ts ·)) is} free ∧
      stuck = (List.range ts.length).filter (ReachesCircle ts ·)) ∧
    (¬ IsCircular ts → order .keep ts = order .reject ts) := by
  constructor
  · exact ⟨(placement ts).1, (placement ts).2, rfl, placement_perm ts,
      isLeast_placed (placed_perm_filter ts), stuck_eq_filter ts⟩
  · exact order_keep_eq_order_reject

end ChartQuery.Transform
