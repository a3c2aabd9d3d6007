import ChartQuery.Proofs.Transform.Placement
import ChartQuery.Transform.Needed
import Mathlib.Order.Lattice.Nat

namespace ChartQuery.Transform

/-- A chain of `n` references leads from a transform that carries one of the keys to the one at a
position. -/
inductive ChainTo (keys : List String) (ts : List Transform) : Nat → Nat → Prop where
  | named {i : Nat} {t : Transform} (ht : ts[i]? = some t) (hk : t.key ∈ keys) :
      ChainTo keys ts 0 i
  | read {n i j : Nat} {t u : Transform} (h : ChainTo keys ts n i) (ht : ts[i]? = some t)
      (hu : ts[j]? = some u) (hr : u.key ∈ t.references) : ChainTo keys ts (n + 1) j

/-- The keys need the transform at a position. -/
def IsNeeded (keys : List String) (ts : List Transform) (i : Nat) : Prop :=
  ∃ n, ChainTo keys ts n i

/-- The length of the shortest chain to a position. -/
noncomputable def depth (keys : List String) (ts : List Transform) (i : Nat) : Nat :=
  sInf {n | ChainTo keys ts n i}

/-- Nearer to the keys, or equally near and earlier in the input. -/
def Precedes (keys : List String) (ts : List Transform) (i j : Nat) : Prop :=
  depth keys ts i < depth keys ts j ∨ depth keys ts i = depth keys ts j ∧ i < j

section Depth

variable {keys : List String} {ts : List Transform} {n i : Nat}

theorem ChainTo.lt_length (h : ChainTo keys ts n i) : i < ts.length := by
  cases h with
  | named ht => exact (List.getElem?_eq_some_iff.1 ht).1
  | read _ _ hu => exact (List.getElem?_eq_some_iff.1 hu).1

theorem ChainTo.isNeeded (h : ChainTo keys ts n i) : IsNeeded keys ts i := ⟨n, h⟩

theorem ChainTo.depth_le (h : ChainTo keys ts n i) : depth keys ts i ≤ n := Nat.sInf_le h

theorem IsNeeded.chainTo (h : IsNeeded keys ts i) : ChainTo keys ts (depth keys ts i) i :=
  Nat.sInf_mem h

theorem IsNeeded.lt_length (h : IsNeeded keys ts i) : i < ts.length := h.chainTo.lt_length

theorem depth_eq_zero_iff {t : Transform} (ht : ts[i]? = some t) :
    IsNeeded keys ts i ∧ depth keys ts i = 0 ↔ t.key ∈ keys := by
  constructor
  · rintro ⟨hneeded, hzero⟩
    have hchain := hneeded.chainTo
    rw [hzero] at hchain
    cases hchain with
    | named hu hk =>
      cases hu.symm.trans ht
      exact hk
  · intro hk
    have hchain : ChainTo keys ts 0 i := .named ht hk
    exact ⟨hchain.isNeeded, Nat.le_zero.1 hchain.depth_le⟩

/-- On a shortest chain the one before the last is one reference nearer. -/
theorem IsNeeded.exists_reader (h : IsNeeded keys ts i) (hn : depth keys ts i = n + 1) :
    ∃ j t u, (IsNeeded keys ts j ∧ depth keys ts j = n) ∧ ts[j]? = some t ∧ ts[i]? = some u ∧
      u.key ∈ t.references := by
  have hchain := h.chainTo
  rw [hn] at hchain
  cases hchain with
  | @read _ j _ t u hj ht hu hr =>
    have hle : depth keys ts j ≤ n := hj.depth_le
    have hback : depth keys ts i ≤ depth keys ts j + 1 :=
      (ChainTo.read hj.isNeeded.chainTo ht hu hr).depth_le
    exact ⟨j, t, u, ⟨hj.isNeeded, by omega⟩, ht, hu, hr⟩

/-- As far as there are needed transforms, there are some at each depth. -/
theorem IsNeeded.exists_depth_eq (h : IsNeeded keys ts i) (hn : n ≤ depth keys ts i) :
    ∃ j, IsNeeded keys ts j ∧ depth keys ts j = n := by
  induction hdepth : depth keys ts i generalizing i with
  | zero => exact ⟨i, h, by omega⟩
  | succ m ih =>
    by_cases he : n = m + 1
    · exact ⟨i, h, by omega⟩
    · obtain ⟨j, _, _, ⟨hj, hm⟩, _⟩ := h.exists_reader hdepth
      exact ih hj (by omega) hm

end Depth

open Classical in
/-- The positions that a round finds, as in the input. -/
noncomputable def layer (keys : List String) (ts : List Transform) (n : Nat) : List Nat :=
  (List.range ts.length).filter fun i => IsNeeded keys ts i ∧ depth keys ts i = n

open Classical in
/-- The positions that are left after a round. -/
noncomputable def beyond (keys : List String) (ts : List Transform) (n : Nat) : List Nat :=
  (List.range ts.length).filter fun i => IsNeeded keys ts i → n < depth keys ts i

section Layers

variable {keys : List String} {ts : List Transform} {n i : Nat}

theorem mem_layer_iff : i ∈ layer keys ts n ↔ IsNeeded keys ts i ∧ depth keys ts i = n := by
  classical
  simp only [layer, List.mem_filter, List.mem_range, decide_eq_true_eq]
  constructor
  · rintro ⟨-, h⟩
    exact h
  · intro h
    exact ⟨h.1.lt_length, h⟩

theorem layer_pairwise (keys : List String) (ts : List Transform) (n : Nat) :
    (layer keys ts n).Pairwise (Precedes keys ts) := by
  classical
  have hascending : (layer keys ts n).Pairwise (· < ·) := List.pairwise_lt_range.filter _
  apply hascending.imp_of_mem
  intro i j hi hj hlt
  right
  exact ⟨(mem_layer_iff.1 hi).2.trans (mem_layer_iff.1 hj).2.symm, hlt⟩

theorem pairwise_layer_append {further : List Nat} (h : further.Pairwise (Precedes keys ts))
    (hn : ∀ i ∈ further, n < depth keys ts i) :
    (layer keys ts n ++ further).Pairwise (Precedes keys ts) := by
  rw [List.pairwise_append]
  refine ⟨layer_pairwise keys ts n, h, ?_⟩
  intro i hi j hj
  left
  rw [(mem_layer_iff.1 hi).2]
  exact hn j hj

theorem filter_select (p : Transform → Bool) (ts : List Transform) (is : List Nat) :
    (select ts is).filter p = select ts (is.filter fun i => ts[i]?.any p) := by
  induction is with
  | nil => rfl
  | cons i is ih =>
    rw [select] at ih ⊢
    cases hi : ts[i]? with
    | none => simpa [select, hi] using ih
    | some t => cases hp : p t <;> simpa [select, hi, hp] using ih

/-- What a round reads is one reference further away, or was found before. -/
theorem readBy_layer_iff {t : Transform} (ht : ts[i]? = some t)
    (hi : IsNeeded keys ts i → n < depth keys ts i) :
    readBy (select ts (layer keys ts n)) t = true ↔
      IsNeeded keys ts i ∧ depth keys ts i = n + 1 := by
  rw [readBy, List.contains_iff_mem, List.mem_flatMap]
  constructor
  · rintro ⟨u, hu, hr⟩
    obtain ⟨j, hj, hju⟩ := mem_select.1 hu
    obtain ⟨hneeded, hdepth⟩ := mem_layer_iff.1 hj
    have hchain : ChainTo keys ts (n + 1) i := .read (hdepth ▸ hneeded.chainTo) hju ht hr
    have hle := hchain.depth_le
    have hlt := hi hchain.isNeeded
    exact ⟨hchain.isNeeded, by omega⟩
  · rintro ⟨hneeded, hdepth⟩
    obtain ⟨j, u, w, hj, hu, hw, hr⟩ := hneeded.exists_reader hdepth
    cases hw.symm.trans ht
    exact ⟨u, mem_select.2 ⟨j, mem_layer_iff.2 hj, hu⟩, hr⟩

/-- A filter of transforms that tells two sets of positions apart selects the one that it keeps. -/
theorem filter_select_range {p : Transform → Bool} {q r : Nat → Bool}
    (h : ∀ i t, ts[i]? = some t → (q i && p t) = r i) :
    (select ts ((List.range ts.length).filter q)).filter p =
      select ts ((List.range ts.length).filter r) := by
  rw [filter_select, List.filter_filter]
  congr 1
  apply List.filter_congr
  intro i hi
  have hlt : i < ts.length := List.mem_range.1 hi
  have hget : ts[i]? = some ts[i] := List.getElem?_eq_getElem hlt
  rw [← h i _ hget, hget, Option.any_some, Bool.and_comm]

theorem filter_eq_select {p : Transform → Bool} {r : Nat → Bool}
    (h : ∀ i t, ts[i]? = some t → p t = r i) :
    ts.filter p = select ts ((List.range ts.length).filter r) := by
  have hall : (List.range ts.length).filter (fun _ => true) = List.range ts.length :=
    List.filter_eq_self.2 fun _ _ => rfl
  have hsplit := filter_select_range (q := fun _ => true) fun i t ht =>
    (Bool.true_and (p t)).trans (h i t ht)
  rwa [hall, select_range] at hsplit

/-- A round splits what is left into the next layer and what is beyond it. -/
theorem partition_beyond (keys : List String) (ts : List Transform) (n : Nat) :
    (select ts (beyond keys ts n)).partition (readBy (select ts (layer keys ts n))) =
      (select ts (layer keys ts (n + 1)), select ts (beyond keys ts (n + 1))) := by
  classical
  rw [List.partition_eq_filter_filter, Prod.mk.injEq]
  constructor
  · apply filter_select_range
    intro i t ht
    rw [Bool.eq_iff_iff, Bool.and_eq_true, decide_eq_true_iff, decide_eq_true_iff]
    constructor
    · rintro ⟨hi, hread⟩
      exact (readBy_layer_iff ht hi).1 hread
    · rintro ⟨hneeded, hdepth⟩
      have hi : IsNeeded keys ts i → n < depth keys ts i := fun _ => by omega
      exact ⟨hi, (readBy_layer_iff ht hi).2 ⟨hneeded, hdepth⟩⟩
  · apply filter_select_range
    intro i t ht
    rw [Bool.eq_iff_iff, Bool.and_eq_true, decide_eq_true_iff, decide_eq_true_iff,
      Function.comp_apply, Bool.not_eq_true', Bool.eq_false_iff]
    constructor
    · rintro ⟨hi, hread⟩ hneeded
      have hlt := hi hneeded
      have hne : depth keys ts i ≠ n + 1 := by
        intro hdepth
        exact hread ((readBy_layer_iff ht hi).2 ⟨hneeded, hdepth⟩)
      omega
    · intro hbeyond
      have hi : IsNeeded keys ts i → n < depth keys ts i := by
        intro hneeded
        have := hbeyond hneeded
        omega
      refine ⟨hi, ?_⟩
      intro hread
      obtain ⟨hneeded, hdepth⟩ := (readBy_layer_iff ht hi).1 hread
      have := hbeyond hneeded
      omega

/-- The rounds behind a layer find all that is further away, nearer ones first. -/
theorem discover_eq_select {frontier rest : List Transform}
    (hfrontier : frontier = select ts (layer keys ts n))
    (hrest : rest = select ts (beyond keys ts n)) :
    ∃ positions, discover frontier rest = select ts positions ∧
      positions.Pairwise (Precedes keys ts) ∧
      ∀ i, i ∈ positions ↔ IsNeeded keys ts i ∧ n < depth keys ts i := by
  fun_induction discover frontier rest generalizing n with
  | case1 frontier rest left h =>
    rw [hfrontier, hrest, partition_beyond, Prod.mk.injEq] at h
    refine ⟨[], rfl, .nil, ?_⟩
    intro i
    constructor
    · intro hi
      cases hi
    · rintro ⟨hneeded, hlt⟩
      obtain ⟨j, hj⟩ := hneeded.exists_depth_eq hlt
      have hj' : j < ts.length := hj.1.lt_length
      have hget : ts[j]? = some ts[j] := List.getElem?_eq_getElem hj'
      have hmem := mem_select.2 ⟨j, mem_layer_iff.2 hj, hget⟩
      rw [h.1] at hmem
      cases hmem
  | case2 frontier rest t found left h ih =>
    rw [hfrontier, hrest, partition_beyond, Prod.mk.injEq] at h
    obtain ⟨positions, hselect, hpairwise, hmem⟩ := ih h.1.symm h.2.symm
    refine ⟨layer keys ts (n + 1) ++ positions, ?_, ?_, ?_⟩
    · rw [select_append, hselect, h.1]
    · exact pairwise_layer_append hpairwise fun i hi => ((hmem i).1 hi).2
    · intro i
      rw [List.mem_append, mem_layer_iff, hmem]
      constructor
      · rintro (⟨hneeded, hdepth⟩ | ⟨hneeded, hlt⟩)
        · exact ⟨hneeded, by omega⟩
        · exact ⟨hneeded, by omega⟩
      · rintro ⟨hneeded, hlt⟩
        by_cases hdepth : depth keys ts i = n + 1
        · exact .inl ⟨hneeded, hdepth⟩
        · exact .inr ⟨hneeded, by omega⟩

/-- Those that carry one of the keys are the first layer. -/
theorem filter_named_eq_select (keys : List String) (ts : List Transform) :
    ts.filter (fun t => keys.contains t.key) = select ts (layer keys ts 0) := by
  classical
  apply filter_eq_select
  intro i t ht
  rw [Bool.eq_iff_iff, List.contains_iff_mem, decide_eq_true_iff]
  exact (depth_eq_zero_iff ht).symm

theorem filter_unnamed_eq_select (keys : List String) (ts : List Transform) :
    ts.filter (fun t => !keys.contains t.key) = select ts (beyond keys ts 0) := by
  classical
  apply filter_eq_select
  intro i t ht
  rw [Bool.eq_iff_iff, Bool.not_eq_true', Bool.eq_false_iff, Ne, List.contains_iff_mem,
    decide_eq_true_iff, ← depth_eq_zero_iff ht, not_and, Nat.pos_iff_ne_zero]

end Layers

/-- Exactly the needed transforms are found, each once: the nearest to the keys first, and those
that are equally near as they came. -/
theorem needed_breadth_first (keys : List String) (ts : List Transform) :
    ∃ positions, needed keys ts = select ts positions ∧ positions.Nodup ∧
      (∀ i, i ∈ positions ↔ IsNeeded keys ts i) ∧ positions.Pairwise (Precedes keys ts) := by
  obtain ⟨further, hselect, hpairwise, hmem⟩ :=
    discover_eq_select (filter_named_eq_select keys ts) (filter_unnamed_eq_select keys ts)
  have hall : (layer keys ts 0 ++ further).Pairwise (Precedes keys ts) :=
    pairwise_layer_append hpairwise fun i hi => ((hmem i).1 hi).2
  refine ⟨layer keys ts 0 ++ further, ?_, ?_, ?_, hall⟩
  · rw [needed, select_append, ← hselect, filter_named_eq_select]
  · apply hall.imp
    rintro i j (hlt | ⟨_, hlt⟩) rfl
    · exact Nat.lt_irrefl _ hlt
    · exact Nat.lt_irrefl _ hlt
  · intro i
    rw [List.mem_append, mem_layer_iff, hmem]
    constructor
    · rintro (⟨hneeded, _⟩ | ⟨hneeded, _⟩) <;> exact hneeded
    · intro hneeded
      rcases Nat.eq_zero_or_pos (depth keys ts i) with hzero | hpos
      · exact .inl ⟨hneeded, hzero⟩
      · exact .inr ⟨hneeded, hpos⟩

end ChartQuery.Transform
