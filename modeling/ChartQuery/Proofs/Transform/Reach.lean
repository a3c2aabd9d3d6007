import ChartQuery.Transform.Needed
import Mathlib.Data.List.Perm.Subperm

namespace ChartQuery.Transform

/-- The transform carries one of the keys, or one that is reached reads it. -/
inductive Reached (keys : List String) (ts : List Transform) : Transform → Prop where
  | named {t : Transform} (ht : t ∈ ts) (hk : t.key ∈ keys) : Reached keys ts t
  | read {t u : Transform} (ht : Reached keys ts t) (hu : u ∈ ts)
      (hr : u.key ∈ t.references) : Reached keys ts u

theorem readBy_iff {frontier : List Transform} {u : Transform} :
    readBy frontier u = true ↔ ∃ t ∈ frontier, u.key ∈ t.references := by
  simp [readBy]

section Round

variable {frontier rest found left : List Transform}

theorem mem_found_iff (h : rest.partition (readBy frontier) = (found, left)) {u : Transform} :
    u ∈ found ↔ u ∈ rest ∧ ∃ t ∈ frontier, u.key ∈ t.references := by
  rw [List.partition_eq_filter_filter, Prod.mk.injEq] at h
  rw [← h.1, List.mem_filter, readBy_iff]

theorem found_append_left_perm (h : rest.partition (readBy frontier) = (found, left)) :
    (found ++ left).Perm rest := by
  rw [List.partition_eq_filter_filter, Prod.mk.injEq] at h
  rw [← h.1, ← h.2]
  exact List.filter_append_perm (readBy frontier) rest

end Round

/-- What is discovered was in the rest, and no entry of it is taken twice. -/
theorem discover_subperm (frontier rest : List Transform) :
    (discover frontier rest).Subperm rest := by
  fun_induction discover frontier rest with
  | case1 => exact List.nil_subperm
  | case2 frontier rest t found left h ih =>
    have hround : (t :: found ++ left).Perm rest := found_append_left_perm h
    have hmore : (t :: found ++ discover (t :: found) left).Subperm (t :: found ++ left) :=
      (List.subperm_append_left (t :: found)).2 ih
    exact hmore.trans hround.subperm

/-- A property of the frontier that goes over to what a transform reads holds of all that is
discovered. -/
theorem of_mem_discover {P : Transform → Prop} {frontier rest : List Transform}
    (hstart : ∀ t ∈ frontier, P t)
    (hstep : ∀ t, P t → ∀ u ∈ rest, u.key ∈ t.references → P u) :
    ∀ u ∈ discover frontier rest, P u := by
  fun_induction discover frontier rest with
  | case1 => simp
  | case2 frontier rest t found left h ih =>
    have hfound : ∀ u ∈ t :: found, P u := by
      intro u hu
      obtain ⟨hrest, w, hw, hr⟩ := (mem_found_iff h).1 hu
      exact hstep w (hstart w hw) u hrest hr
    have hleft : ∀ u ∈ left, u ∈ rest := by
      intro u hu
      exact (found_append_left_perm h).subset (List.mem_append_right _ hu)
    intro u hu
    rcases List.mem_append.1 hu with hu | hu
    · exact hfound u hu
    · exact ih hfound (fun w hw x hx => hstep w hw x (hleft x hx)) u hu

/-- Nothing that the frontier or a discovered transform reads is left behind. -/
theorem mem_discover_of_read {frontier rest : List Transform} {t u : Transform}
    (ht : t ∈ frontier ∨ t ∈ discover frontier rest) (hu : u ∈ rest)
    (hr : u.key ∈ t.references) : u ∈ discover frontier rest := by
  fun_induction discover frontier rest generalizing t u with
  | case1 frontier rest left h =>
    have ht : t ∈ frontier := ht.resolve_right List.not_mem_nil
    exact absurd ((mem_found_iff h).2 ⟨hu, t, ht, hr⟩) List.not_mem_nil
  | case2 frontier rest w found left h ih =>
    by_cases hfound : u ∈ w :: found
    · exact List.mem_append_left _ hfound
    have hleft : u ∈ left := by
      have hboth := (found_append_left_perm h).mem_iff.2 hu
      exact (List.mem_append.1 hboth).resolve_left hfound
    have hnext : t ∈ w :: found ∨ t ∈ discover (w :: found) left := by
      rcases ht with ht | ht
      · exact absurd ((mem_found_iff h).2 ⟨hu, t, ht, hr⟩) hfound
      · exact List.mem_append.1 ht
    exact List.mem_append_right _ (ih hnext hleft hr)

section Needed

variable (keys : List String) (ts : List Transform)

theorem needed_subperm : (needed keys ts).Subperm ts := by
  have hrest := discover_subperm (ts.filter fun t => keys.contains t.key)
    (ts.filter fun t => !keys.contains t.key)
  have hboth := (List.subperm_append_left (ts.filter fun t => keys.contains t.key)).2 hrest
  exact hboth.trans (List.filter_append_perm (fun t => keys.contains t.key) ts).subperm

variable {keys ts}

theorem mem_needed_of_mem_keys {t : Transform} (ht : t ∈ ts) (hk : t.key ∈ keys) :
    t ∈ needed keys ts := by
  apply List.mem_append_left
  simp [ht, hk]

theorem mem_needed_of_read {t u : Transform} (ht : t ∈ needed keys ts) (hu : u ∈ ts)
    (hr : u.key ∈ t.references) : u ∈ needed keys ts := by
  by_cases hk : u.key ∈ keys
  · exact mem_needed_of_mem_keys hu hk
  · apply List.mem_append_right
    apply mem_discover_of_read (List.mem_append.1 ht) _ hr
    simp [hu, hk]

theorem mem_needed_iff {t : Transform} : t ∈ needed keys ts ↔ Reached keys ts t := by
  constructor
  · intro ht
    have hnamed : ∀ u ∈ ts.filter fun u => keys.contains u.key, Reached keys ts u := by
      intro u hu
      obtain ⟨hu, hk⟩ := List.mem_filter.1 hu
      exact .named hu (List.contains_iff_mem.1 hk)
    rcases List.mem_append.1 ht with ht | ht
    · exact hnamed t ht
    · refine of_mem_discover hnamed ?_ t ht
      intro u hu w hw hr
      exact .read hu (List.mem_filter.1 hw).1 hr
  · intro h
    induction h with
    | named ht hk => exact mem_needed_of_mem_keys ht hk
    | read _ hu hr ih => exact mem_needed_of_read ih hu hr

end Needed

/-- What a transform with a key of the set reads is in the set, too. -/
def IsClosed (K : String → Bool) (ts : List Transform) : Prop :=
  ∀ t ∈ ts, K t.key = true → ∀ fid ∈ t.references, K fid = true

section Restriction

variable {frontier rest found left : List Transform}

theorem discover_of_nothing (h : rest.partition (readBy frontier) = ([], left)) :
    discover frontier rest = [] := by
  rw [discover]
  split
  · rfl
  · next heq =>
    rw [h] at heq
    cases heq

theorem discover_of_found {t : Transform}
    (h : rest.partition (readBy frontier) = (t :: found, left)) :
    discover frontier rest = t :: found ++ discover (t :: found) left := by
  rw [discover]
  split
  · next heq =>
    rw [h] at heq
    cases heq
  · next heq =>
    rw [h] at heq
    cases heq
    rfl

variable {K : String → Bool}

/-- A round that finds only transforms with a key in the set finds the same without the others. -/
theorem partition_filter (h : rest.partition (readBy frontier) = (found, left))
    (hfound : ∀ t ∈ found, K t.key = true) :
    (rest.filter (K ·.key)).partition (readBy frontier) = (found, left.filter (K ·.key)) := by
  rw [List.partition_eq_filter_filter, Prod.mk.injEq] at h ⊢
  obtain ⟨rfl, rfl⟩ := h
  refine ⟨?_, List.filter_comm _ _ _⟩
  rw [List.filter_comm, List.filter_eq_self]
  exact hfound

/-- A frontier that reads only what is in a closed set finds only what is in it. -/
theorem discover_filter (hrest : IsClosed K rest)
    (hfrontier : ∀ t ∈ frontier, ∀ fid ∈ t.references, K fid = true) :
    discover frontier (rest.filter (K ·.key)) = discover frontier rest := by
  fun_induction discover frontier rest with
  | case1 frontier rest left h =>
    exact discover_of_nothing (partition_filter h (by simp))
  | case2 frontier rest t found left h ih =>
    have hmem : ∀ u ∈ t :: found, u ∈ rest ∧ K u.key = true := by
      intro u hu
      obtain ⟨hrest, w, hw, hr⟩ := (mem_found_iff h).1 hu
      exact ⟨hrest, hfrontier w hw u.key hr⟩
    have hleft : left ⊆ rest := fun u hu =>
      (found_append_left_perm h).subset (List.mem_append_right _ hu)
    have hnext : discover (t :: found) (left.filter (K ·.key)) = discover (t :: found) left := by
      apply ih (fun u hu => hrest u (hleft hu))
      intro u hu
      exact hrest u (hmem u hu).1 (hmem u hu).2
    rw [discover_of_found (partition_filter h fun u hu => (hmem u hu).2), hnext]

variable {keys : List String} {ts : List Transform}

/-- Transforms whose keys are not in a closed set that contains the keys are not needed, and make
no difference to those that are. -/
theorem needed_filter (hts : IsClosed K ts) (hkeys : ∀ fid ∈ keys, K fid = true) :
    needed keys (ts.filter (K ·.key)) = needed keys ts := by
  have hnamed : (ts.filter (K ·.key)).filter (fun t => keys.contains t.key) =
      ts.filter fun t => keys.contains t.key := by
    rw [List.filter_comm, List.filter_eq_self]
    intro t ht
    exact hkeys t.key (List.contains_iff_mem.1 (List.mem_filter.1 ht).2)
  have hfrontier : ∀ t ∈ ts.filter (fun t => keys.contains t.key),
      ∀ fid ∈ t.references, K fid = true := by
    intro t ht
    obtain ⟨ht, hk⟩ := List.mem_filter.1 ht
    exact hts t ht (hkeys t.key (List.contains_iff_mem.1 hk))
  have hrest : IsClosed K (ts.filter fun t => !keys.contains t.key) := fun t ht =>
    hts t (List.mem_filter.1 ht).1
  rw [needed, needed, hnamed, List.filter_comm, discover_filter hrest hfrontier]

theorem Reached.mem {t : Transform} (h : Reached keys ts t) : t ∈ ts := by
  cases h with
  | named ht => exact ht
  | read _ hu => exact hu

theorem Reached.key_of_isClosed (hts : IsClosed K ts) (hkeys : ∀ fid ∈ keys, K fid = true)
    {t : Transform} (h : Reached keys ts t) : K t.key = true := by
  induction h with
  | named _ hk => exact hkeys _ hk
  | read ht _ hr ih => exact hts _ ht.mem ih _ hr

end Restriction

end ChartQuery.Transform
