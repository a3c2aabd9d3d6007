import ChartQuery.Proofs.Transform.Placement
import Mathlib.Data.List.Chain
import Mathlib.Data.List.Permutation

namespace ChartQuery.Transform

/-- A way along a relation that ends where it starts and comes through no other element twice. -/
structure IsCircle {α : Type} (r : α → α → Prop) (xs : List α) : Prop where
  two_le_length : 2 ≤ xs.length
  head?_eq : xs.head? = xs.getLast?
  nodup : xs.dropLast.Nodup
  isChain : xs.IsChain r

section Circle

variable {α β : Type} {r : α → α → Prop} {xs : List α}

theorem exists_of_mem_tail {x : α} (h : (x :: xs).IsChain r) {y : α} (hy : y ∈ xs) :
    ∃ z ∈ x :: xs, r z y := by
  induction xs generalizing x with
  | nil => cases hy
  | cons w xs ih =>
    obtain ⟨hr, hrest⟩ := List.isChain_cons_cons.1 h
    rcases List.mem_cons.1 hy with rfl | hy
    · exact ⟨x, List.mem_cons_self, hr⟩
    · obtain ⟨z, hz, hzy⟩ := ih hrest hy
      exact ⟨z, List.mem_cons_of_mem x hz, hzy⟩

/-- On a circle each element has one before it. -/
theorem IsCircle.exists_rel (h : IsCircle r xs) {y : α} (hy : y ∈ xs) : ∃ x ∈ xs, r x y := by
  cases xs with
  | nil => cases hy
  | cons x xs =>
    have hlength := h.two_le_length
    have hne : xs ≠ [] := by
      intro he
      simp [he] at hlength
    rcases List.mem_cons.1 hy with rfl | hy
    · have hlast : xs.getLast hne = y := by
        have hends := h.head?_eq
        rw [List.getLast?_cons, List.getLast?_eq_getLast_of_ne_nil hne] at hends
        simpa using hends.symm
      exact exists_of_mem_tail h.isChain (hlast ▸ List.getLast_mem hne)
    · exact exists_of_mem_tail h.isChain hy

/-- Where a way comes back to itself, the part from there on is a circle. -/
theorem isCircle_of_back {x : α} {before after : List α} (hnodup : (before ++ x :: after).Nodup)
    (h : (before ++ x :: after ++ [x]).IsChain r) : IsCircle r (x :: after ++ [x]) := by
  rw [List.nodup_append] at hnodup
  rw [List.append_assoc, List.isChain_append] at h
  constructor
  case two_le_length => simp
  case head?_eq =>
    rw [List.getLast?_concat]
    rfl
  case nodup =>
    rw [List.dropLast_concat]
    exact hnodup.2.1
  case isChain => exact h.2.1

theorem IsCircle.map {s : β → β → Prop} {f : α → β} (h : IsCircle r xs)
    (hr : ∀ x ∈ xs, ∀ y ∈ xs, r x y → s (f x) (f y))
    (hf : ∀ x ∈ xs, ∀ y ∈ xs, f x = f y → x = y) : IsCircle s (xs.map f) := by
  have hdrop : xs.dropLast ⊆ xs := List.dropLast_subset xs
  constructor
  case two_le_length =>
    rw [List.length_map]
    exact h.two_le_length
  case head?_eq => rw [List.head?_map, List.getLast?_map, h.head?_eq]
  case nodup =>
    rw [← List.map_dropLast]
    exact h.nodup.map_on fun x hx y hy => hf x (hdrop hx) y (hdrop hy)
  case isChain =>
    rw [List.isChain_map]
    exact h.isChain.imp_of_mem_imp fun x y hx hy => hr x hx y hy

end Circle

section Loop

variable {next : Nat → Option Nat} {path loop stuck : List Nat} {i fuel : Nat}

/-- What the search gives is a circle: the part of the path from where it came back to. -/
theorem isCircle_of_loop?_eq_some (hlast : path.getLast? = some i) (hnodup : path.Nodup)
    (hpath : path.IsChain fun a b => next a = some b)
    (h : loop? next fuel path i = some loop) : IsCircle (fun a b => next a = some b) loop := by
  induction fuel generalizing path i with
  | zero => cases h
  | succ fuel ih =>
    rw [loop?] at h
    split at h
    · cases h
    · next j hnext =>
      have hend : (path ++ [j]).IsChain fun a b => next a = some b := by
        apply hpath.append (List.isChain_singleton j)
        intro a ha b hb
        rw [hlast, Option.mem_some_iff] at ha
        rw [List.head?_singleton, Option.mem_some_iff] at hb
        rw [← ha, ← hb]
        exact hnext
      split at h
      · next hj =>
        obtain ⟨before, after, hsplit, hfirst⟩ :=
          List.eq_append_cons_of_mem (List.contains_iff_mem.1 hj)
        have hdrop : path.dropWhile (· != j) = j :: after := by
          rw [hsplit, List.dropWhile_append_of_pos]
          · simp
          · intro a ha
            have hne : a ≠ j := fun he => hfirst (he ▸ ha)
            simpa using hne
        rw [hdrop, Option.some.injEq] at h
        rw [hsplit] at hnodup hend
        exact h ▸ isCircle_of_back hnodup hend
      · next hj =>
        have hnew : j ∉ path := fun hmem => hj (List.contains_iff_mem.2 hmem)
        have hlonger : (path ++ [j]).Nodup := by simpa using hnodup.concat hnew
        exact ih List.getLast?_concat hlonger hend h

/-- A path without repetition among the stuck positions cannot outgrow them, so the search ends. -/
theorem exists_loop?_eq_some (hnext : ∀ k ∈ stuck, ∃ j ∈ stuck, next k = some j) (hi : i ∈ stuck)
    (hpath : path ⊆ stuck) (hnodup : path.Nodup) (hfuel : stuck.length < fuel + path.length) :
    ∃ loop, loop? next fuel path i = some loop := by
  induction fuel generalizing path i with
  | zero =>
    have hlength := (hnodup.subperm hpath).length_le
    omega
  | succ fuel ih =>
    obtain ⟨j, hj, hij⟩ := hnext i hi
    rw [loop?, hij]
    by_cases hback : path.contains j = true
    · exact ⟨_, if_pos hback⟩
    · have hnew : j ∉ path := fun hmem => hback (List.contains_iff_mem.2 hmem)
      have hlonger : (path ++ [j]).Nodup := by simpa using hnodup.concat hnew
      have hinside : path ++ [j] ⊆ stuck :=
        List.append_subset.2 ⟨hpath, by simpa using hj⟩
      simp only [if_neg hback]
      apply ih hj hinside hlonger
      rw [List.length_append, List.length_singleton]
      omega

end Loop

/-- The last transform with the key `a` reads the key `b`. -/
def KeyReads (ts : List Transform) (a b : String) : Prop :=
  ∃ (i : Nat) (t : Transform), ts[i]? = some t ∧ t.key = a ∧
    (∀ l w, i < l → ts[l]? = some w → w.key ≠ a) ∧ b ∈ t.references

section Order

variable {ts : List Transform} {keys : List String}

theorem order_reject_eq_error_iff : order .reject ts = .error keys ↔
    (placement ts).2 ≠ [] ∧
      keys = keysAt ts (cycle (readsOf (precedents ts).toArray) (placement ts).2) := by
  rw [order]
  by_cases h : (placement ts).2 = []
  · simp [h]
  · simp [h, eq_comm]

theorem stuckRead?_eq_some {reads : Nat → List Nat} {stuck : List Nat} {i j : Nat}
    (h : stuckRead? reads stuck i = some j) : j ∈ reads i ∧ j ∈ stuck := by
  have hmem := List.min?_mem h
  simpa using hmem

theorem exists_stuckRead?_eq_some {reads : Nat → List Nat} {stuck : List Nat} {i j : Nat}
    (hj : j ∈ reads i) (hs : j ∈ stuck) : ∃ k ∈ stuck, stuckRead? reads stuck i = some k := by
  have hmem : j ∈ (reads i).filter stuck.contains := by simp [hj, hs]
  cases hk : stuckRead? reads stuck i with
  | none =>
    rw [List.min?_eq_none_iff.1 hk] at hmem
    cases hmem
  | some k => exact ⟨k, (stuckRead?_eq_some hk).2, rfl⟩

/-- Where transforms are stuck the search finds a circle of references among them. -/
theorem exists_circle? (hstuck : (placement ts).2 ≠ []) :
    ∃ loop, circle? (readsOf (precedents ts).toArray) (placement ts).2 = some loop ∧
      IsCircle (Reads ts) loop := by
  obtain ⟨start, rest, hcons⟩ := List.exists_cons_of_ne_nil hstuck
  have hstart : start ∈ (placement ts).2 := by simp [hcons]
  have hnext : ∀ k ∈ (placement ts).2, ∃ j ∈ (placement ts).2,
      stuckRead? (readsOf (precedents ts).toArray) (placement ts).2 k = some j := by
    intro k hk
    obtain ⟨j, hj, hr⟩ := exists_reads_stuck hk
    exact exists_stuckRead?_eq_some (mem_precedents_iff.2 hr) hj
  have hpath : [start] ⊆ (placement ts).2 := by simpa using hstart
  have hfuel : (placement ts).2.length < (placement ts).2.length + [start].length := by simp
  obtain ⟨loop, hloop⟩ :=
    exists_loop?_eq_some hnext hstart hpath (List.nodup_singleton start) hfuel
  have hcircle : circle? (readsOf (precedents ts).toArray) (placement ts).2 = some loop := by
    have hhead : (placement ts).2.head? = some start := by rw [hcons]; rfl
    rw [circle?, hhead]
    exact hloop
  have hfound := isCircle_of_loop?_eq_some rfl (List.nodup_singleton start)
    (List.isChain_singleton start) hloop
  refine ⟨loop, hcircle, hfound.two_le_length, hfound.head?_eq, hfound.nodup, ?_⟩
  exact hfound.isChain.imp fun a b hab => mem_precedents_iff.1 (stuckRead?_eq_some hab).1

/-- The key at a position of the list. -/
def keyAt (ts : List Transform) (i : Nat) : String := (ts[i]?.map key).getD ""

theorem keysAt_eq_map {is : List Nat} (h : ∀ i ∈ is, i < ts.length) :
    keysAt ts is = is.map (keyAt ts) := by
  induction is with
  | nil => rfl
  | cons i is ih =>
    have hlt : i < ts.length := h i List.mem_cons_self
    have hi : ts[i]? = some ts[i] := List.getElem?_eq_getElem hlt
    have hrest := ih fun k hk => h k (List.mem_cons_of_mem i hk)
    rw [keysAt, select] at hrest ⊢
    rw [List.filterMap_cons_some hi, List.map_cons, hrest]
    simp [keyAt, hi]

theorem Reads.keyReads {i j k : Nat} (hi : Reads ts k i) (h : Reads ts i j) :
    KeyReads ts (keyAt ts i) (keyAt ts j) := by
  obtain ⟨_, u, _, hu, _, hlast⟩ := hi
  obtain ⟨t, w, ht, hw, hr, _⟩ := h
  cases hu.symm.trans ht
  refine ⟨i, u, ht, ?_, ?_, ?_⟩
  · simp [keyAt, ht]
  · simpa [keyAt, ht] using hlast
  · simpa [keyAt, hw] using hr

/-- Two that are read, each by its key, are one if their keys are. -/
theorem Reads.eq_of_keyAt_eq {i j k l : Nat} (hi : Reads ts k i) (hj : Reads ts l j)
    (h : keyAt ts i = keyAt ts j) : i = j := by
  obtain ⟨_, t, _, ht, _, hlasti⟩ := hi
  obtain ⟨_, u, _, hu, _, hlastj⟩ := hj
  have hkey : t.key = u.key := by simpa [keyAt, ht, hu] using h
  rcases Nat.lt_trichotomy i j with hlt | heq | hgt
  · exact absurd hkey.symm (hlasti j u hlt hu)
  · exact heq
  · exact absurd hkey (hlastj i t hgt ht)

theorem IsCircle.keysAt {loop : List Nat} (h : IsCircle (Reads ts) loop) :
    IsCircle (KeyReads ts) (keysAt ts loop) := by
  have hlt : ∀ i ∈ loop, i < ts.length := by
    intro i hi
    obtain ⟨k, _, hr⟩ := h.exists_rel hi
    exact hr.lt_length.2
  rw [keysAt_eq_map hlt]
  apply h.map
  · intro i hi j _ hr
    obtain ⟨k, _, hk⟩ := h.exists_rel hi
    exact hk.keyReads hr
  · intro i hi j hj he
    obtain ⟨k, _, hk⟩ := h.exists_rel hi
    obtain ⟨l, _, hl⟩ := h.exists_rel hj
    exact hk.eq_of_keyAt_eq hl he

/-- A reported circle is one, and was found as such: the stuck transforms are never listed in its
place. -/
theorem isCircle_of_order_eq_error (h : order .reject ts = .error keys) :
    IsCircle (KeyReads ts) keys ∧
      ∃ loop, circle? (readsOf (precedents ts).toArray) (placement ts).2 = some loop ∧
        keys = Transform.keysAt ts loop := by
  obtain ⟨hstuck, hkeys⟩ := order_reject_eq_error_iff.1 h
  obtain ⟨loop, hloop, hcircle⟩ := exists_circle? hstuck
  rw [cycle, hloop, Option.getD_some] at hkeys
  rw [hkeys]
  exact ⟨hcircle.keysAt, loop, hloop, rfl⟩

/-- The net sales are computed from the gross ones by way of a nested expression, and the gross
ones from the net ones; the share waits behind that circle. -/
def circularSales : List Transform :=
  [⟨"share", ⟨"/", [.field "net", .field "total"], "share"⟩⟩,
    ⟨"gross", ⟨"+", [.field "net", .field "tax"], "gross"⟩⟩,
    ⟨"net", ⟨"abs", [.expression ⟨"-", [.field "gross", .field "tax"], "rest"⟩], "net"⟩⟩]

theorem isCircle_of_circularSales :
    order .reject circularSales = .error ["net", "gross", "net"] ∧
      IsCircle (KeyReads circularSales) ["net", "gross", "net"] ∧
        ∃ loop, circle? (readsOf (precedents circularSales).toArray)
          (placement circularSales).2 = some loop ∧
            ["net", "gross", "net"] = Transform.keysAt circularSales loop := by
  have h : order .reject circularSales = .error ["net", "gross", "net"] := by with_unfolding_all rfl
  exact ⟨h, isCircle_of_order_eq_error h⟩

end Order

end ChartQuery.Transform
