namespace ChartQuery.Transform

/-- How many of those that each position reads are still to be placed, and the positions that are
ready since they wait for none. -/
structure Countdown where
  counts : List Nat
  ready : List Nat

namespace Countdown

/-- Nothing is placed yet. -/
def start (counts : List Nat) : Countdown :=
  ⟨counts, (List.range counts.length).filter fun i => counts[i]?.getD 0 == 0⟩

def count (c : Countdown) (i : Nat) : Nat := c.counts[i]?.getD 0

/-- One of those that a position reads is placed; after the last one the position is ready. A
position that waits for none is left alone. -/
def lower (c : Countdown) (i : Nat) : Countdown :=
  match c.count i with
  | 0 => c
  | n + 1 => ⟨c.counts.set i n, if n = 0 then c.ready ++ [i] else c.ready⟩

/-- A ready position is taken out to be placed. -/
def take (c : Countdown) (i : Nat) : Countdown := { c with ready := c.ready.erase i }

/-- A position is placed, and all that read it count down. -/
def advance (readers : Nat → List Nat) (c : Countdown) (i : Nat) : Countdown :=
  (readers i).foldl lower (c.take i)

theorem exists_getElem_of_count {c : Countdown} {i n : Nat} (h : c.count i = n + 1) :
    ∃ hi : i < c.counts.length, c.counts[i] = n + 1 := by
  rw [count] at h
  cases hi : c.counts[i]? with
  | none =>
    rw [hi] at h
    cases h
  | some m =>
    rw [hi] at h
    obtain ⟨hlt, hm⟩ := List.getElem?_eq_some_iff.1 hi
    exact ⟨hlt, hm.trans h⟩

/-- How many positions can still become ready or are. -/
def remaining (c : Countdown) : Nat := c.counts.countP (0 < ·) + c.ready.length

theorem remaining_lower_le (c : Countdown) (i : Nat) : (c.lower i).remaining ≤ c.remaining := by
  rw [lower]
  split
  · exact Nat.le_refl _
  · next n hn =>
    obtain ⟨hi, hn⟩ := exists_getElem_of_count hn
    have hpos : 0 < c.counts[i] := by omega
    have hone : 0 < c.counts.countP (0 < ·) :=
      List.countP_pos_iff.2 ⟨c.counts[i], List.getElem_mem hi, decide_eq_true hpos⟩
    simp only [remaining, List.countP_set hi, hpos, decide_true, if_true]
    cases n with
    | zero =>
      simp only [Nat.lt_irrefl, decide_false, Bool.false_eq_true, if_true, if_false,
        List.length_append, List.length_singleton]
      omega
    | succ n =>
      simp only [Nat.succ_pos, decide_true, Nat.succ_ne_zero, if_true, if_false]
      omega

theorem remaining_foldl_lower_le (readers : List Nat) (c : Countdown) :
    (readers.foldl lower c).remaining ≤ c.remaining := by
  induction readers generalizing c with
  | nil => exact Nat.le_refl _
  | cons i readers ih => exact Nat.le_trans (ih (c.lower i)) (c.remaining_lower_le i)

theorem remaining_advance_lt (readers : Nat → List Nat) {c : Countdown} {i : Nat}
    (h : i ∈ c.ready) : (c.advance readers i).remaining < c.remaining := by
  have hle := remaining_foldl_lower_le (readers i) (c.take i)
  have hpos := List.length_pos_of_mem h
  have hless := List.length_erase_of_mem h
  simp only [advance, remaining, take] at hle ⊢
  omega

/-- Places the least ready position, again and again. Gives the positions in that order, and what
the counts come down to. -/
def drain (readers : Nat → List Nat) (c : Countdown) : List Nat × Countdown :=
  match _ : c.ready.min? with
  | some i =>
    let (order, last) := drain readers (c.advance readers i)
    (i :: order, last)
  | none => ([], c)
termination_by c.remaining
decreasing_by exact remaining_advance_lt readers (List.min?_mem ‹_›)

end Countdown

end ChartQuery.Transform
