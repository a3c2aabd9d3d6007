import ChartQuery.Transform.Order
import Mathlib.Data.List.Count
import Mathlib.Data.List.Sort
import Mathlib.Logic.Relation

namespace ChartQuery.Transform

/-- How many of those that a position reads are waiting. -/
def pending (reads : Nat → List Nat) (waiting : List Nat) (i : Nat) : Nat :=
  (reads i).countP waiting.contains

/-- Takes the first waiting position that reads no waiting one, again and again. Gives the
positions in that order, and those that wait for ever. -/
def place (reads : Nat → List Nat) (waiting : List Nat) : List Nat × List Nat :=
  match _ : waiting.find? fun i => pending reads waiting i == 0 with
  | some i =>
    let (order, stuck) := place reads (waiting.erase i)
    (i :: order, stuck)
  | none => ([], waiting)
termination_by waiting.length
decreasing_by
  have hm := List.mem_of_find?_eq_some ‹_ = some i›
  have := List.length_pos_of_mem hm
  rw [List.length_erase_of_mem hm]
  omega

section Place

variable {reads : Nat → List Nat} {waiting : List Nat}

theorem pending_eq_zero_iff {i : Nat} :
    pending reads waiting i = 0 ↔ ∀ j ∈ reads i, j ∉ waiting := by
  simp [pending]

/-- Only those that read a position wait for one fewer when it is placed. -/
theorem pending_erase {i j : Nat} (hw : waiting.Nodup) (hr : (reads j).Nodup) (hi : i ∈ waiting) :
    pending reads (waiting.erase i) j = pending reads waiting j - if i ∈ reads j then 1 else 0 := by
  have hsplit : ∀ k, (waiting.erase i).contains k = (waiting.contains k && k != i) := by
    intro k
    rw [Bool.eq_iff_iff]
    simp [hw.mem_erase_iff, and_comm]
  have herase :
      pending reads (waiting.erase i) j = ((reads j).erase i).countP waiting.contains := by
    rw [hr.erase_eq_filter, List.countP_filter]
    exact List.countP_congr fun k _ => by rw [hsplit]
  rw [herase, List.countP_erase]
  simp [pending, hi]

theorem place_of_find?_eq_some {i : Nat}
    (h : waiting.find? (fun i => pending reads waiting i == 0) = some i) :
    place reads waiting =
      (i :: (place reads (waiting.erase i)).1, (place reads (waiting.erase i)).2) := by
  rw [place]
  split
  · next heq =>
    rw [h] at heq
    cases heq
    rfl
  · next heq =>
    rw [h] at heq
    cases heq

theorem place_of_find?_eq_none
    (h : waiting.find? (fun i => pending reads waiting i == 0) = none) :
    place reads waiting = ([], waiting) := by
  rw [place]
  split
  · next heq =>
    rw [h] at heq
    cases heq
  · rfl

/-- Among ascending positions the first that reads no waiting one is the least of them. -/
theorem find?_pending_eq_some_iff (hw : waiting.Pairwise (· < ·)) {i : Nat} :
    waiting.find? (fun i => pending reads waiting i == 0) = some i ↔
      (i ∈ waiting ∧ pending reads waiting i = 0) ∧
        ∀ j ∈ waiting, pending reads waiting j = 0 → i ≤ j := by
  rw [List.find?_eq_some_iff_append]
  constructor
  · rintro ⟨hzero, before, after, hsplit, hbefore⟩
    rw [hsplit, List.pairwise_append, List.pairwise_cons] at hw
    refine ⟨⟨by simp [hsplit], by simpa using hzero⟩, ?_⟩
    intro j hj hjzero
    rw [hsplit, List.mem_append, List.mem_cons] at hj
    rcases hj with hj | rfl | hj
    · have hnot := hbefore j hj
      simp [hjzero] at hnot
    · exact Nat.le_refl _
    · exact Nat.le_of_lt (hw.2.1.1 j hj)
  · rintro ⟨⟨hi, hzero⟩, hleast⟩
    obtain ⟨before, after, hsplit⟩ := List.append_of_mem hi
    refine ⟨by simpa using hzero, before, after, hsplit, ?_⟩
    intro j hj
    have hmem : j ∈ waiting := by simp [hsplit, hj]
    rw [hsplit, List.pairwise_append] at hw
    have hlt : j < i := hw.2.2 j hj i List.mem_cons_self
    have hne : pending reads waiting j ≠ 0 := by
      intro hjzero
      have := hleast j hmem hjzero
      omega
    simpa using hne

end Place

namespace Countdown

section Lower

variable {c : Countdown} {i j : Nat}

@[simp] theorem count_take (c : Countdown) (i j : Nat) : (c.take i).count j = c.count j := rfl

theorem count_lower (c : Countdown) (i j : Nat) :
    (c.lower i).count j = if j = i then c.count i - 1 else c.count j := by
  rw [lower]
  split
  · next h => split <;> simp [*]
  · next n h =>
    obtain ⟨hi, _⟩ := exists_getElem_of_count h
    by_cases hj : j = i
    · rw [if_pos hj, hj, h]
      simp [count, hi]
    · simp [count, hj, Ne.symm hj]

theorem ready_lower (h : 0 < c.count i) :
    (c.lower i).ready = c.ready ++ if c.count i = 1 then [i] else [] := by
  rw [lower]
  split
  · next hzero => omega
  · next n hn =>
    rw [hn]
    cases n <;> simp

variable {readers : List Nat}

theorem count_foldl_lower (hreaders : readers.Nodup) (c : Countdown) (j : Nat) :
    (readers.foldl lower c).count j = if j ∈ readers then c.count j - 1 else c.count j := by
  induction readers generalizing c with
  | nil => simp
  | cons i readers ih =>
    obtain ⟨hi, hrest⟩ := List.nodup_cons.1 hreaders
    rw [List.foldl_cons, ih hrest, count_lower]
    by_cases hj : j = i
    · subst hj
      simp [hi]
    · simp [hj]

/-- Those whose last precedent was placed become ready. -/
theorem ready_foldl_lower (hreaders : readers.Nodup) (hpos : ∀ j ∈ readers, 0 < c.count j) :
    (readers.foldl lower c).ready = c.ready ++ readers.filter (c.count · == 1) := by
  induction readers generalizing c with
  | nil => simp
  | cons i readers ih =>
    obtain ⟨hi, hrest⟩ := List.nodup_cons.1 hreaders
    have hsame : ∀ j ∈ readers, (c.lower i).count j = c.count j := by
      intro j hj
      have hne : j ≠ i := fun he => hi (he ▸ hj)
      simp [count_lower, hne]
    have hlater : ∀ j ∈ readers, 0 < (c.lower i).count j := by
      intro j hj
      rw [hsame j hj]
      exact hpos j (List.mem_cons_of_mem i hj)
    have hfilter : readers.filter ((c.lower i).count · == 1) = readers.filter (c.count · == 1) :=
      List.filter_congr fun j hj => by rw [hsame j hj]
    rw [List.foldl_cons, ih hrest hlater, hfilter, ready_lower (hpos i List.mem_cons_self)]
    by_cases hone : c.count i = 1 <;> simp [hone]

end Lower

/-- The least ready position is placed. -/
def Step (readers : Nat → List Nat) (c d : Countdown) : Prop :=
  ∃ i, c.ready.min? = some i ∧ d = c.advance readers i

/-- When the next position is placed, each count that goes down is above zero. -/
def LowersPositive (readers : Nat → List Nat) (c : Countdown) : Prop :=
  ∀ i before j after, c.ready.min? = some i → readers i = before ++ j :: after →
    0 < (before.foldl lower (c.take i)).count j

section Tallies

variable {table : Array (List Nat)} {waiting : List Nat} {c d : Countdown} {i : Nat}

/-- Each count is the number of waiting positions that are read, and the ready positions are the
waiting ones that read none. -/
structure Tallies (table : Array (List Nat)) (waiting : List Nat) (c : Countdown) : Prop where
  ascending : waiting.Pairwise (· < ·)
  lt_size : ∀ i ∈ waiting, i < table.size
  count_eq : ∀ i < table.size, c.count i = pending (readsOf table) waiting i
  placed : ∀ i < table.size, i ∉ waiting → pending (readsOf table) waiting i = 0
  ready_nodup : c.ready.Nodup
  mem_ready_iff : ∀ i, i ∈ c.ready ↔ i ∈ waiting ∧ pending (readsOf table) waiting i = 0

theorem mem_readersOf_iff {i j : Nat} :
    j ∈ readersOf table i ↔ j < table.size ∧ i ∈ readsOf table j := by
  simp [readersOf]

theorem readersOf_nodup (table : Array (List Nat)) (i : Nat) : (readersOf table i).Nodup :=
  List.nodup_range.filter _

theorem tallies_start (hlt : ∀ i, ∀ j ∈ readsOf table i, j < table.size) :
    Tallies table (List.range table.size) (start (table.toList.map List.length)) := by
  have hcount : ∀ i < table.size, (start (table.toList.map List.length)).count i =
      pending (readsOf table) (List.range table.size) i := by
    intro i hi
    have hall : pending (readsOf table) (List.range table.size) i = (readsOf table i).length := by
      rw [pending, List.countP_eq_length]
      intro j hj
      simpa using hlt i j hj
    rw [hall]
    simp [start, count, readsOf, hi]
  constructor
  case ascending => exact List.pairwise_lt_range
  case lt_size => simp
  case count_eq => exact hcount
  case placed =>
    intro i hi hnot
    exact absurd (List.mem_range.2 hi) hnot
  case ready_nodup => exact List.nodup_range.filter _
  case mem_ready_iff =>
    intro i
    have hready : i ∈ (start (table.toList.map List.length)).ready ↔
        i < table.size ∧ (start (table.toList.map List.length)).count i = 0 := by
      simp [start, count]
    rw [hready, List.mem_range]
    constructor
    · rintro ⟨hi, hzero⟩
      exact ⟨hi, (hcount i hi).symm.trans hzero⟩
    · rintro ⟨hi, hzero⟩
      exact ⟨hi, (hcount i hi).trans hzero⟩

variable (hnodup : ∀ i, (readsOf table i).Nodup)

theorem Tallies.waiting_nodup (h : Tallies table waiting c) : waiting.Nodup :=
  h.ascending.imp Nat.ne_of_lt

theorem Tallies.mem_waiting (h : Tallies table waiting c) (hi : c.ready.min? = some i) :
    i ∈ waiting :=
  ((h.mem_ready_iff i).1 (List.min?_mem hi)).1

/-- Whoever reads a waiting position counts it. -/
theorem Tallies.count_pos (h : Tallies table waiting c) (hi : i ∈ waiting) {j : Nat}
    (hj : j ∈ readersOf table i) : 0 < c.count j := by
  obtain ⟨hlt, hr⟩ := mem_readersOf_iff.1 hj
  rw [h.count_eq j hlt, Nat.pos_iff_ne_zero, Ne, pending_eq_zero_iff]
  intro hnone
  exact hnone i hr hi

/-- When nothing is ready, those wait whose count is not down to zero. -/
theorem Tallies.count_pos_iff (h : Tallies table waiting c) (hready : c.ready = []) :
    i < table.size ∧ 0 < c.count i ↔ i ∈ waiting := by
  constructor
  · rintro ⟨hi, hpos⟩
    by_contra hnot
    rw [h.count_eq i hi, h.placed i hi hnot] at hpos
    omega
  · intro hi
    refine ⟨h.lt_size i hi, ?_⟩
    rw [h.count_eq i (h.lt_size i hi), Nat.pos_iff_ne_zero]
    intro hnone
    have hmem := (h.mem_ready_iff i).2 ⟨hi, hnone⟩
    rw [hready] at hmem
    cases hmem

theorem Tallies.lowersPositive (h : Tallies table waiting c) :
    c.LowersPositive (readersOf table) := by
  intro i before j after hi hsplit
  have hj : j ∈ readersOf table i := by simp [hsplit]
  have hreaders := readersOf_nodup table i
  rw [hsplit, List.nodup_append] at hreaders
  have hnot : j ∉ before := by
    intro hmem
    exact hreaders.2.2 j hmem j List.mem_cons_self rfl
  rw [count_foldl_lower hreaders.1, if_neg hnot, count_take]
  exact h.count_pos (h.mem_waiting hi) hj

theorem Tallies.mem_waiting_of_reads (h : Tallies table waiting c) (hi : i ∈ waiting) {j : Nat}
    (hj : j ∈ readersOf table i) : j ∈ waiting := by
  by_contra hnot
  have hlt := (mem_readersOf_iff.1 hj).1
  have hpos := h.count_pos hi hj
  rw [h.count_eq j hlt, h.placed j hlt hnot] at hpos
  omega

theorem Tallies.ready_advance (h : Tallies table waiting c) (hi : i ∈ waiting) :
    (c.advance (readersOf table) i).ready =
      c.ready.erase i ++ (readersOf table i).filter (c.count · == 1) :=
  ready_foldl_lower (readersOf_nodup table i) fun _ hj => h.count_pos hi hj

/-- None becomes ready that was ready before. -/
theorem Tallies.ready_advance_nodup (h : Tallies table waiting c) (hi : i ∈ waiting) :
    (c.advance (readersOf table) i).ready.Nodup := by
  rw [h.ready_advance hi, List.nodup_append]
  refine ⟨h.ready_nodup.erase i, (readersOf_nodup table i).filter _, ?_⟩
  intro j hj k hk he
  obtain ⟨hwaiting, hnone⟩ := (h.mem_ready_iff j).1 (List.mem_of_mem_erase hj)
  have hone := (List.mem_filter.1 hk).2
  rw [← he, h.count_eq j (h.lt_size j hwaiting), hnone] at hone
  cases hone

include hnodup

theorem Tallies.pending_erase (h : Tallies table waiting c) (hi : i ∈ waiting) {j : Nat}
    (hj : j < table.size) : pending (readsOf table) (waiting.erase i) j =
      pending (readsOf table) waiting j - if j ∈ readersOf table i then 1 else 0 := by
  rw [Transform.pending_erase h.waiting_nodup (hnodup j) hi]
  simp [mem_readersOf_iff, hj]

/-- Ready are then those that were, and the readers that waited for this position alone. -/
theorem Tallies.mem_ready_advance_iff (h : Tallies table waiting c) (hi : c.ready.min? = some i)
    (j : Nat) : j ∈ (c.advance (readersOf table) i).ready ↔
      j ∈ waiting.erase i ∧ pending (readsOf table) (waiting.erase i) j = 0 := by
  have hwait : i ∈ waiting := h.mem_waiting hi
  rw [h.ready_advance hwait, List.mem_append, List.mem_filter, h.ready_nodup.mem_erase_iff,
    h.waiting_nodup.mem_erase_iff, h.mem_ready_iff]
  constructor
  · rintro (⟨hne, hj, hnone⟩ | ⟨hreader, hone⟩)
    · refine ⟨⟨hne, hj⟩, ?_⟩
      rw [h.pending_erase hnodup hwait (h.lt_size j hj), hnone, Nat.zero_sub]
    · have hj := h.mem_waiting_of_reads hwait hreader
      have hlt := h.lt_size j hj
      rw [beq_iff_eq, h.count_eq j hlt] at hone
      have hne : j ≠ i := by
        intro he
        rw [he, ((h.mem_ready_iff i).1 (List.min?_mem hi)).2] at hone
        cases hone
      refine ⟨⟨hne, hj⟩, ?_⟩
      rw [h.pending_erase hnodup hwait hlt, hone, if_pos hreader]
  · rintro ⟨⟨hne, hj⟩, hnone⟩
    have hlt := h.lt_size j hj
    rw [h.pending_erase hnodup hwait hlt] at hnone
    by_cases hreader : j ∈ readersOf table i
    · right
      have hpos := h.count_pos hwait hreader
      rw [h.count_eq j hlt] at hpos
      rw [if_pos hreader] at hnone
      refine ⟨hreader, ?_⟩
      rw [beq_iff_eq, h.count_eq j hlt]
      omega
    · left
      rw [if_neg hreader] at hnone
      exact ⟨hne, hj, hnone⟩

theorem Tallies.advance (h : Tallies table waiting c) (hi : c.ready.min? = some i) :
    Tallies table (waiting.erase i) (c.advance (readersOf table) i) := by
  have hwait : i ∈ waiting := h.mem_waiting hi
  constructor
  case ascending => exact h.ascending.erase i
  case lt_size =>
    intro j hj
    exact h.lt_size j (List.mem_of_mem_erase hj)
  case count_eq =>
    intro j hj
    rw [Countdown.advance, count_foldl_lower (readersOf_nodup table i), count_take,
      h.count_eq j hj, h.pending_erase hnodup hwait hj]
    split <;> rfl
  case placed =>
    intro j hj hnot
    rw [h.pending_erase hnodup hwait hj]
    by_cases he : j = i
    · rw [he, ((h.mem_ready_iff i).1 (List.min?_mem hi)).2, Nat.zero_sub]
    · have hplaced : j ∉ waiting := fun hmem => hnot ((List.mem_erase_of_ne he).2 hmem)
      rw [h.placed j hj hplaced, Nat.zero_sub]
  case ready_nodup => exact h.ready_advance_nodup hwait
  case mem_ready_iff => exact h.mem_ready_advance_iff hnodup hi

/-- Whatever is placed, the counts stay right. -/
theorem Tallies.of_steps (h : Tallies table waiting c)
    (hsteps : Relation.ReflTransGen (Step (readersOf table)) c d) :
    ∃ left, Tallies table left d := by
  induction hsteps with
  | refl => exact ⟨waiting, h⟩
  | tail _ hstep ih =>
    obtain ⟨left, hleft⟩ := ih
    obtain ⟨i, hi, rfl⟩ := hstep
    exact ⟨left.erase i, hleft.advance hnodup hi⟩

/-- The countdown places the first waiting position that reads no waiting one, until all that
wait read one. -/
theorem Tallies.drain (h : Tallies table waiting c) :
    (c.drain (readersOf table)).1 = (place (readsOf table) waiting).1 ∧
      Tallies table (place (readsOf table) waiting).2 (c.drain (readersOf table)).2 ∧
      (c.drain (readersOf table)).2.ready = [] := by
  fun_induction Countdown.drain (readersOf table) c generalizing waiting with
  | case1 c i hi order last hdrain ih =>
    have hleast : ∀ j, j ∈ waiting ∧ pending (readsOf table) waiting j = 0 → i ≤ j := by
      intro j hj
      exact (List.min?_eq_some_iff.1 hi).2 j ((h.mem_ready_iff j).2 hj)
    have hfind := (find?_pending_eq_some_iff h.ascending).2
      ⟨(h.mem_ready_iff i).1 (List.min?_mem hi), fun j hj hnone => hleast j ⟨hj, hnone⟩⟩
    have hnext := ih (h.advance hnodup hi)
    rw [hdrain] at hnext
    rw [place_of_find?_eq_some hfind]
    exact ⟨congrArg (i :: ·) hnext.1, hnext.2⟩
  | case2 c hi =>
    have hnone : c.ready = [] := List.min?_eq_none_iff.1 hi
    have hfind : waiting.find? (fun i => pending (readsOf table) waiting i == 0) = none := by
      rw [List.find?_eq_none]
      intro j hj hzero
      have hready := (h.mem_ready_iff j).2 ⟨hj, beq_iff_eq.1 hzero⟩
      rw [hnone] at hready
      cases hready
    rw [place_of_find?_eq_none hfind]
    exact ⟨rfl, h, hnone⟩

end Tallies

end Countdown

end ChartQuery.Transform
