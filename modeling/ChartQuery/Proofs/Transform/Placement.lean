import ChartQuery.Proofs.Transform.Countdown
import Mathlib.Data.Fintype.Card
import Mathlib.Data.Fintype.EquivFin
import Mathlib.Data.Fintype.Sets
import Mathlib.Order.WellFounded

namespace ChartQuery.Transform

section Place

variable {reads : Nat → List Nat} {waiting : List Nat}

theorem place_perm (reads : Nat → List Nat) (waiting : List Nat) :
    ((place reads waiting).1 ++ (place reads waiting).2).Perm waiting := by
  fun_induction place reads waiting with
  | case1 waiting i h order stuck hplace ih =>
    rw [hplace] at ih
    have hi : i ∈ waiting := List.mem_of_find?_eq_some h
    exact (ih.cons i).trans (List.perm_cons_erase hi).symm
  | case2 waiting h => exact List.Perm.refl waiting

/-- Whatever a placed position reads, and had to wait for, is placed before it. -/
theorem mem_before_of_place {before after : List Nat} {i j : Nat}
    (h : (place reads waiting).1 = before ++ i :: after) (hj : j ∈ reads i) (hw : j ∈ waiting) :
    j ∈ before := by
  fun_induction place reads waiting generalizing before with
  | case1 waiting k hfind order stuck hplace ih =>
    rw [hplace] at ih
    cases before with
    | nil =>
      have hk : k = i := (List.cons.inj h).1
      subst hk
      have hnone := List.find?_some hfind
      rw [beq_iff_eq, pending_eq_zero_iff] at hnone
      exact absurd hw (hnone j hj)
    | cons b before =>
      have hk : k = b := (List.cons.inj h).1
      subst hk
      by_cases he : j = k
      · rw [he]
        exact List.mem_cons_self
      · have hleft : j ∈ waiting.erase k := (List.mem_erase_of_ne he).2 hw
        exact List.mem_cons_of_mem k (ih (List.cons.inj h).2 hleft)
  | case2 waiting hfind => simp at h

/-- A position that waits for ever reads another one that does. -/
theorem exists_mem_stuck {i : Nat} (h : i ∈ (place reads waiting).2) :
    ∃ j ∈ reads i, j ∈ (place reads waiting).2 := by
  fun_induction place reads waiting with
  | case1 waiting k hfind order stuck hplace ih =>
    rw [hplace] at ih
    exact ih h
  | case2 waiting hfind =>
    have hne := List.find?_eq_none.1 hfind i h
    rw [beq_iff_eq, pending_eq_zero_iff] at hne
    simpa using hne

end Place

/-- The transform at `i` reads the key of the one at `j`, which is the last that carries it. -/
def Reads (ts : List Transform) (i j : Nat) : Prop :=
  ∃ t u, ts[i]? = some t ∧ ts[j]? = some u ∧ u.key ∈ t.references ∧
    ∀ l w, j < l → ts[l]? = some w → w.key ≠ u.key

/-- Some transform reads itself, directly or through others. -/
def IsCircular (ts : List Transform) : Prop := ∃ i, Relation.TransGen (Reads ts) i i

theorem lastIndex?_eq_none_iff {key : String} {keys : List String} :
    lastIndex? key keys = none ↔ key ∉ keys := by
  induction keys with
  | nil => simp [lastIndex?]
  | cons k keys ih =>
    rw [lastIndex?, List.mem_cons, not_or]
    cases hlast : lastIndex? key keys with
    | some i =>
      have hmem : ¬ key ∉ keys := by simp [← ih, hlast]
      simp [hmem]
    | none => simp [ih.1 hlast, eq_comm]

theorem lastIndex?_eq_some_iff {key : String} {keys : List String} {j : Nat} :
    lastIndex? key keys = some j ↔
      keys[j]? = some key ∧ ∀ l, j < l → keys[l]? ≠ some key := by
  induction keys generalizing j with
  | nil => simp [lastIndex?]
  | cons k keys ih =>
    rw [lastIndex?]
    cases hlast : lastIndex? key keys with
    | some i =>
      obtain ⟨hi, hmax⟩ := ih.1 hlast
      constructor
      · rintro ⟨⟩
        refine ⟨hi, fun l hl => ?_⟩
        obtain ⟨m, rfl⟩ : ∃ m, l = m + 1 := ⟨l - 1, by omega⟩
        exact hmax m (by omega)
      · rintro ⟨hj, hlater⟩
        cases j with
        | zero => exact absurd hi (hlater (i + 1) (by omega))
        | succ j =>
          have hthis : lastIndex? key keys = some j :=
            ih.2 ⟨hj, fun l hl => hlater (l + 1) (by omega)⟩
          rw [hlast, Option.some.injEq] at hthis
          rw [hthis]
    | none =>
      have habsent : ∀ l : Nat, keys[l]? ≠ some key := by
        intro l hl
        exact lastIndex?_eq_none_iff.1 hlast (List.mem_of_getElem? hl)
      cases j with
      | zero =>
        have hlater : ∀ l, 0 < l → ¬ (k :: keys)[l]? = some key := by
          intro l hl
          obtain ⟨m, rfl⟩ : ∃ m, l = m + 1 := ⟨l - 1, by omega⟩
          exact habsent m
        simpa using fun _ => hlater
      | succ j => simp [habsent j]

section Precedents

variable {ts : List Transform}

theorem readsOf_toArray (table : List (List Nat)) (i : Nat) :
    readsOf table.toArray i = table[i]?.getD [] := by
  simp [readsOf]

theorem mem_precedents_iff {i j : Nat} :
    j ∈ readsOf (precedents ts).toArray i ↔ Reads ts i j := by
  rw [readsOf_toArray, precedents, List.getElem?_map]
  cases hi : ts[i]? with
  | none => simp [Reads, hi]
  | some t =>
    simp only [Option.map_some, Option.getD_some, mem_distinct, List.mem_filterMap,
      lastIndex?_eq_some_iff, List.getElem?_map, Option.map_eq_some_iff]
    constructor
    · rintro ⟨key, hkey, ⟨u, hu, rfl⟩, hlast⟩
      exact ⟨t, u, hi, hu, hkey, fun l w hl hw he => hlast l hl (by simp [hw, he])⟩
    · rintro ⟨t', u, ht', hu, hkey, hlast⟩
      cases hi.symm.trans ht'
      refine ⟨u.key, hkey, ⟨u, hu, rfl⟩, fun l hl hw => ?_⟩
      rw [Option.map_eq_some_iff] at hw
      obtain ⟨w, hw, he⟩ := hw
      exact hlast l w hl hw he

theorem Reads.lt_length {i j : Nat} (h : Reads ts i j) : i < ts.length ∧ j < ts.length := by
  obtain ⟨t, u, hi, hj, _⟩ := h
  exact ⟨(List.getElem?_eq_some_iff.1 hi).1, (List.getElem?_eq_some_iff.1 hj).1⟩

/-- Where no key comes twice, the one that carries a key is the last one that does. -/
theorem reads_of_keys_nodup (hkeys : (ts.map key).Nodup) {i j : Nat} {t u : Transform}
    (hi : ts[i]? = some t) (hj : ts[j]? = some u) (hr : u.key ∈ t.references) : Reads ts i j := by
  refine ⟨t, u, hi, hj, hr, ?_⟩
  intro l w hl hw he
  have hsame : (ts.map key)[j]? = (ts.map key)[l]? := by
    simp [hj, hw, he]
  have hin : j < (ts.map key).length := by
    simpa using (List.getElem?_eq_some_iff.1 hj).1
  exact Nat.ne_of_lt hl ((List.getElem?_inj hin hkeys).1 hsame)

theorem size_precedents (ts : List Transform) : (precedents ts).toArray.size = ts.length := by
  simp [precedents]

/-- No reference is counted twice. -/
theorem readsOf_precedents_nodup (ts : List Transform) (i : Nat) :
    (readsOf (precedents ts).toArray i).Nodup := by
  rw [readsOf_toArray, precedents, List.getElem?_map]
  cases ts[i]? with
  | none => exact List.nodup_nil
  | some t => exact distinct_nodup _

theorem tallies_precedents (ts : List Transform) :
    Countdown.Tallies (precedents ts).toArray (List.range ts.length)
      (Countdown.start ((precedents ts).map List.length)) := by
  rw [← size_precedents ts]
  apply Countdown.tallies_start
  intro i j hj
  rw [size_precedents]
  exact (mem_precedents_iff.1 hj).lt_length.2

/-- Counting down comes to the same as looking for the first position that waits for none. -/
theorem placement_eq_place (ts : List Transform) :
    placement ts = place (readsOf (precedents ts).toArray) (List.range ts.length) := by
  obtain ⟨hplaced, hlast, hready⟩ :=
    (tallies_precedents ts).drain (readsOf_precedents_nodup ts)
  apply Prod.ext
  · exact hplaced
  · apply (List.pairwise_lt_range.filter _).eq_of_mem_iff hlast.ascending
    intro i
    have hsize : i < ts.length ↔ i < (precedents ts).toArray.size := by rw [size_precedents]
    rw [List.mem_filter, List.mem_range, decide_eq_true_iff, hsize]
    exact hlast.count_pos_iff hready

theorem placement_perm (ts : List Transform) :
    ((placement ts).1 ++ (placement ts).2).Perm (List.range ts.length) := by
  rw [placement_eq_place]
  exact place_perm _ _

theorem mem_before_of_placement {before after : List Nat} {i j : Nat}
    (h : (placement ts).1 = before ++ i :: after) (hr : Reads ts i j) : j ∈ before := by
  rw [placement_eq_place] at h
  exact mem_before_of_place h (mem_precedents_iff.2 hr) (List.mem_range.2 hr.lt_length.2)

theorem exists_reads_stuck {i : Nat} (h : i ∈ (placement ts).2) :
    ∃ j ∈ (placement ts).2, Reads ts i j := by
  rw [placement_eq_place] at h ⊢
  obtain ⟨j, hj, hs⟩ := exists_mem_stuck h
  exact ⟨j, hs, mem_precedents_iff.1 hj⟩

end Precedents

section Circles

variable {ts : List Transform}

/-- What a placed position reads is placed, at an earlier place in the order. -/
theorem idxOf_lt_of_reads {i j : Nat} (hi : i ∈ (placement ts).1) (hr : Reads ts i j) :
    j ∈ (placement ts).1 ∧ (placement ts).1.idxOf j < (placement ts).1.idxOf i := by
  obtain ⟨before, after, hsplit, hfirst⟩ := List.eq_append_cons_of_mem hi
  have hj : j ∈ before := mem_before_of_placement hsplit hr
  have hlt := List.idxOf_lt_length_of_mem hj
  constructor
  · rw [hsplit]
    exact List.mem_append_left _ hj
  · rw [hsplit, List.idxOf_append_of_mem hj, List.idxOf_append_of_notMem hfirst]
    omega

theorem mem_placed_of_reaches {i j : Nat} (hi : i ∈ (placement ts).1)
    (h : Relation.ReflTransGen (Reads ts) i j) : j ∈ (placement ts).1 := by
  induction h with
  | refl => exact hi
  | tail _ hr ih => exact (idxOf_lt_of_reads ih hr).1

/-- Along references the place in the order goes down, so none that is placed stands on a
circle. -/
theorem not_transGen_self_of_placed {i : Nat} (hi : i ∈ (placement ts).1) :
    ¬ Relation.TransGen (Reads ts) i i := by
  have hdown : ∀ j, Relation.TransGen (Reads ts) i j →
      (placement ts).1.idxOf j < (placement ts).1.idxOf i := by
    intro j hj
    induction hj with
    | single hr => exact (idxOf_lt_of_reads hi hr).2
    | tail hpath hr ih =>
      have hplaced := mem_placed_of_reaches hi hpath.to_reflTransGen
      exact (idxOf_lt_of_reads hplaced hr).2.trans ih
  intro hi
  exact lt_irrefl _ (hdown i hi)

/-- Among finitely many elements that each have a successor among them there is a circle. -/
theorem exists_transGen_self {α : Type} [DecidableEq α] {r : α → α → Prop} {xs : List α}
    (hne : xs ≠ []) (hnext : ∀ x ∈ xs, ∃ y ∈ xs, r x y) :
    ∃ x ∈ xs, Relation.TransGen r x x := by
  by_contra hacyclic
  have : IsTrans {x // x ∈ xs} (fun y x => Relation.TransGen r x.1 y.1) :=
    ⟨fun _ _ _ hab hbc => hbc.trans hab⟩
  have : Std.Irrefl (fun y x : {x // x ∈ xs} => Relation.TransGen r x.1 y.1) :=
    ⟨fun x hx => hacyclic ⟨x.1, x.2, hx⟩⟩
  have hwf := Finite.wellFounded_of_trans_of_irrefl
    (fun y x : {x // x ∈ xs} => Relation.TransGen r x.1 y.1)
  obtain ⟨start, hstart⟩ := List.exists_mem_of_ne_nil xs hne
  obtain ⟨last, _, hlast⟩ := hwf.has_min Set.univ ⟨⟨start, hstart⟩, trivial⟩
  obtain ⟨y, hy, hr⟩ := hnext last.1 last.2
  exact hlast ⟨y, hy⟩ trivial (.single hr)

/-- The transform reads itself, or one that reads itself, directly or through others. -/
def ReachesCircle (ts : List Transform) (i : Nat) : Prop :=
  ∃ j, Relation.ReflTransGen (Reads ts) i j ∧ Relation.TransGen (Reads ts) j j

theorem ReachesCircle.lt_length {i : Nat} (h : ReachesCircle ts i) : i < ts.length := by
  obtain ⟨j, hpath, hcircle⟩ := h
  have hloop := Relation.TransGen.trans_right hpath hcircle
  obtain ⟨k, hr, _⟩ := Relation.TransGen.head'_iff.1 hloop
  exact hr.lt_length.1

theorem isCircular_iff : IsCircular ts ↔ ∃ i, ReachesCircle ts i := by
  constructor
  · rintro ⟨i, hi⟩
    exact ⟨i, i, .refl, hi⟩
  · rintro ⟨_, i, _, hi⟩
    exact ⟨i, hi⟩

/-- Those wait for ever that are on a circle, or read one that waits for ever. -/
theorem mem_stuck_iff {i : Nat} : i ∈ (placement ts).2 ↔ ReachesCircle ts i := by
  classical
  constructor
  · intro hi
    have hreached : i ∈ (placement ts).2.filter (Relation.ReflTransGen (Reads ts) i) :=
      List.mem_filter.2 ⟨hi, decide_eq_true .refl⟩
    -- The stuck positions that can be reached from `i` each read another one.
    obtain ⟨j, hj, hcircle⟩ := exists_transGen_self (r := Reads ts)
      (List.ne_nil_of_mem hreached) fun j hj => by
        obtain ⟨hstuck, hpath⟩ := List.mem_filter.1 hj
        obtain ⟨k, hk, hr⟩ := exists_reads_stuck hstuck
        refine ⟨k, List.mem_filter.2 ⟨hk, ?_⟩, hr⟩
        exact decide_eq_true ((of_decide_eq_true hpath).tail hr)
    exact ⟨j, of_decide_eq_true (List.mem_filter.1 hj).2, hcircle⟩
  · intro h
    have hall := (placement_perm ts).mem_iff.2 (List.mem_range.2 h.lt_length)
    rcases List.mem_append.1 hall with hplaced | hstuck
    · obtain ⟨j, hpath, hcircle⟩ := h
      exact absurd hcircle (not_transGen_self_of_placed (mem_placed_of_reaches hplaced hpath))
    · exact hstuck

theorem stuck_eq_nil_iff : (placement ts).2 = [] ↔ ¬ IsCircular ts := by
  rw [isCircular_iff, List.eq_nil_iff_forall_not_mem, not_exists]
  exact forall_congr' fun i => not_congr mem_stuck_iff

end Circles

section Order

variable {ts out : List Transform}

theorem select_append (ts : List Transform) (is js : List Nat) :
    select ts (is ++ js) = select ts is ++ select ts js :=
  List.filterMap_append

theorem select_range (ts : List Transform) : select ts (List.range ts.length) = ts := by
  induction ts using List.reverseRecOn with
  | nil => rfl
  | append_singleton ts t ih =>
    have hfirst : select (ts ++ [t]) (List.range ts.length) = select ts (List.range ts.length) := by
      apply List.filterMap_congr
      intro i hi
      exact List.getElem?_append_left (List.mem_range.1 hi)
    rw [List.length_append, List.length_singleton, List.range_succ, select_append, hfirst, ih]
    simp [select]

theorem mem_select {is : List Nat} {t : Transform} :
    t ∈ select ts is ↔ ∃ i ∈ is, ts[i]? = some t :=
  List.mem_filterMap

/-- Circles, and nothing else, are refused. -/
theorem order_reject_eq_ok_iff : order .reject ts = .ok out ↔
    ¬ IsCircular ts ∧ out = select ts (placement ts).1 := by
  rw [← stuck_eq_nil_iff, order]
  by_cases h : (placement ts).2 = []
  · simp [h, eq_comm]
  · simp [h]

theorem order_reject_isOk_iff : (∃ out, order .reject ts = .ok out) ↔ ¬ IsCircular ts := by
  simp [order_reject_eq_ok_iff]

theorem order_perm {policy : CyclePolicy} (h : order policy ts = .ok out) : out.Perm ts := by
  have hall : (select ts ((placement ts).1 ++ (placement ts).2)).Perm ts := by
    have hperm := (placement_perm ts).filterMap (ts[·]?)
    rw [← select, ← select, select_range] at hperm
    exact hperm
  cases policy with
  | keep =>
    cases h
    exact hall
  | reject =>
    obtain ⟨hacyclic, rfl⟩ := order_reject_eq_ok_iff.1 h
    rw [stuck_eq_nil_iff.2 hacyclic, List.append_nil] at hall
    exact hall

/-- Where no key comes twice, a transform comes after all that it reads. -/
theorem mem_before_of_order (h : order .reject ts = .ok out) (hkeys : (ts.map key).Nodup)
    {before after : List Transform} {t u : Transform} (hout : out = before ++ t :: after)
    (hu : u ∈ ts) (hr : u.key ∈ t.references) : u ∈ before := by
  have hnodup : out.Nodup := ((order_perm h).nodup_iff).2 hkeys.of_map
  obtain ⟨_, hsel⟩ := order_reject_eq_ok_iff.1 h
  have ht : t ∈ select ts (placement ts).1 := by
    rw [← hsel, hout]
    simp
  obtain ⟨i, hi, hit⟩ := mem_select.1 ht
  obtain ⟨first, last, hplaced⟩ := List.append_of_mem hi
  have hsplit : out = select ts first ++ t :: select ts last := by
    rw [hsel, hplaced, select_append, select, select, List.filterMap_cons_some hit]
    rfl
  have hbefore : before = select ts first := by
    rw [hsplit, List.nodup_middle, List.nodup_cons, List.mem_append, not_or] at hnodup
    have heq := hsplit.symm.trans hout
    exact ((List.append_cons_inj_of_notMem hnodup.1.1 hnodup.1.2).1 heq).1.symm
  obtain ⟨j, hj⟩ := List.mem_iff_getElem?.1 hu
  have hreads : Reads ts i j := reads_of_keys_nodup hkeys hit hj hr
  rw [hbefore, mem_select]
  exact ⟨j, mem_before_of_placement hplaced hreads, hj⟩

end Order

end ChartQuery.Transform
