namespace ChartQuery

variable {α κ : Type}

def distinctBy [BEq κ] (key : α → κ) : List α → List α
  | [] => []
  | x :: xs => x :: (distinctBy key xs).filter fun y => key y != key x

def distinct [BEq α] (xs : List α) : List α := distinctBy id xs

theorem mem_of_mem_distinctBy [BEq κ] {key : α → κ} {xs : List α} {x : α}
    (h : x ∈ distinctBy key xs) : x ∈ xs := by
  induction xs with
  | nil => simp [distinctBy] at h
  | cons y ys ih =>
    simp only [distinctBy, List.mem_cons, List.mem_filter] at h
    rcases h with rfl | ⟨h, _⟩
    · simp
    · simp [ih h]

/-- Each key is still there. -/
theorem exists_beq_distinctBy [BEq κ] [EquivBEq κ] {key : α → κ} {xs : List α} {x : α}
    (h : x ∈ xs) : ∃ y ∈ distinctBy key xs, (key y == key x) = true := by
  induction xs with
  | nil => simp at h
  | cons z zs ih =>
    cases hz : key z == key x with
    | true => exact ⟨z, by simp [distinctBy], hz⟩
    | false =>
      rcases List.mem_cons.1 h with rfl | h
      · simp at hz
      · obtain ⟨y, hy, hk⟩ := ih h
        refine ⟨y, List.mem_cons_of_mem _ (List.mem_filter.2 ⟨hy, ?_⟩), hk⟩
        rw [bne, BEq.congr_left hk, BEq.comm, hz]
        rfl

theorem exists_mem_distinctBy [BEq κ] [LawfulBEq κ] {key : α → κ} {xs : List α} {x : α}
    (h : x ∈ xs) : ∃ y ∈ distinctBy key xs, key y = key x := by
  have he : ∃ y ∈ distinctBy key xs, (key y == key x) = true := exists_beq_distinctBy h
  simpa using he

/-- No key comes twice. -/
theorem distinctBy_pairwise [BEq κ] (key : α → κ) (xs : List α) :
    (distinctBy key xs).Pairwise fun x y => (key y == key x) = false := by
  induction xs with
  | nil => exact .nil
  | cons x xs ih =>
    refine .cons (fun y hy => ?_) (ih.filter _)
    simpa [bne] using (List.mem_filter.1 hy).2

theorem distinctBy_keys [BEq κ] [LawfulBEq κ] (key : α → κ) (xs : List α) :
    ((distinctBy key xs).map key).Nodup := by
  induction xs with
  | nil => simp [distinctBy]
  | cons x xs ih =>
    simp only [distinctBy, List.map_cons, List.nodup_cons]
    refine ⟨by simp, ?_⟩
    exact ih.sublist (List.filter_sublist.map key)

theorem distinctBy_map {β : Type} [BEq κ] (key : β → κ) (f : α → β) (xs : List α) :
    distinctBy key (xs.map f) = (distinctBy (fun x => key (f x)) xs).map f := by
  induction xs with
  | nil => rfl
  | cons x xs ih =>
    simp only [List.map_cons, distinctBy, ih, List.filter_map]
    rfl

/-- Of what is appended, only new keys stay. -/
theorem distinctBy_append [BEq κ] (key : α → κ) (xs ys : List α) :
    distinctBy key (xs ++ ys) = distinctBy key xs ++
      (distinctBy key ys).filter fun y => !xs.any fun x => key y == key x := by
  induction xs with
  | nil => exact (List.filter_eq_self.2 fun _ _ => rfl).symm
  | cons x xs ih =>
    simp only [List.cons_append, distinctBy, ih, List.filter_append, List.filter_filter,
      List.any_cons, Bool.not_or]
    rfl

theorem mem_distinct [BEq α] [LawfulBEq α] {xs : List α} {x : α} : x ∈ distinct xs ↔ x ∈ xs := by
  refine ⟨mem_of_mem_distinctBy, fun h => ?_⟩
  have hk : ∃ y ∈ distinctBy id xs, id y = id x := exists_mem_distinctBy h
  obtain ⟨y, hy, rfl⟩ := hk
  exact hy

theorem distinct_nodup [BEq α] [LawfulBEq α] (xs : List α) : (distinct xs).Nodup := by
  have h := distinctBy_keys id xs
  rwa [List.map_id] at h

end ChartQuery
