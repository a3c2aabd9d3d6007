import ChartQuery.Pivot.Batch
import ChartQuery.Proofs.Pivot.Groupings

namespace ChartQuery

namespace Memo

variable {κ ν : Type} [BEq κ] [LawfulBEq κ]

theorem keys_put (k : κ) (v : ν) (entries : List (κ × ν)) :
    (put k v entries).map Prod.fst =
      if k ∈ entries.map Prod.fst then entries.map Prod.fst
      else entries.map Prod.fst ++ [k] := by
  induction entries with
  | nil => simp [put]
  | cons e entries ih =>
    by_cases he : e.1 = k
    · simp [put, he]
    · have hb : (e.1 == k) = false := by simpa using he
      have hk : ¬ k = e.1 := fun h => he h.symm
      simp only [put, hb, Bool.false_eq_true, if_false, List.map_cons, ih, List.mem_cons, hk,
        false_or]
      split <;> simp

theorem keys_insert (m : Memo κ ν) (k : κ) (v : ν) :
    (m.insert k v).keys = if k ∈ m.keys then m.keys else m.keys ++ [k] :=
  keys_put k v m.entries

end Memo

namespace Cache

variable (c : Cache) (s : Signature) (g h : Grouping) (rows : List Row)

theorem get?_insert : (c.insert g rows).get? h = if h = g then some rows else c.get? h := by
  have hi := Memo.get?_insert c.entries g h rows
  simp only [beq_iff_eq] at hi
  exact hi

theorem isValidFor_iff : c.isValidFor s = true ↔ c.signature = some s := by
  simp [isValidFor]

@[simp] theorem signature_validate : (c.validate s).signature = some s := by
  unfold validate
  split
  · rename_i hs
    exact (c.isValidFor_iff s).mp hs
  · rfl

/-- Entries outlive a validation only under the signature they were made for. -/
theorem get?_validate :
    (c.validate s).get? g = if c.isValidFor s then c.get? g else none := by
  unfold validate
  split <;> rfl

end Cache

namespace Results

variable (r : Results) (g h : Grouping) (rows : List Row)

@[simp] theorem failed_insert : (r.insert g rows).failed = r.failed := rfl

@[simp] theorem failed_insertFailed : (r.insertFailed g).failed = r.failed ++ [g] := rfl

theorem get?_insert : (r.insert g rows).get? h = if h = g then some rows else r.get? h := by
  have hi := Memo.get?_insert r.entries g h rows
  simp only [beq_iff_eq] at hi
  exact hi

theorem get?_insertFailed : (r.insertFailed g).get? h = if h = g then some [] else r.get? h := by
  have hi := Memo.get?_insert r.entries g h []
  simp only [beq_iff_eq] at hi
  exact hi

theorem groupings_insert : (r.insert g rows).groupings =
    if (r.get? g).isSome then r.groupings else r.groupings ++ [g] := rfl

theorem groupings_insertFailed : (r.insertFailed g).groupings =
    if (r.get? g).isSome then r.groupings else r.groupings ++ [g] := rfl

end Results

namespace Request

/-- The rows that a batch has for a grouping: those it fetched, else those in the cache. -/
def found? (fetched : Memo Grouping (List Row)) (c : Cache) (g : Grouping) : Option (List Row) :=
  (fetched.get? g).or (c.get? g)

section

variable (fetched : Memo Grouping (List Row)) (s : Cache × Results) (g h : Grouping)

@[simp] theorem signature_settleOne :
    (settleOne fetched s g).1.signature = s.1.signature := by
  unfold settleOne
  cases fetched.get? g with
  | none => dsimp only; split <;> rfl
  | some rows => dsimp only; split <;> rfl

theorem get?_settleOne : (settleOne fetched s g).1.get? h =
    if h = g then found? fetched s.1 g else s.1.get? h := by
  unfold settleOne found?
  cases hf : fetched.get? g with
  | none =>
    dsimp only
    split <;> by_cases hg : h = g <;> simp [hg]
  | some rows =>
    dsimp only
    split <;> simp [Cache.get?_insert]

theorem results_settleOne : (settleOne fetched s g).2 =
    match found? fetched s.1 g with
    | some rows => s.2.insert g rows
    | none => s.2.insertFailed g := by
  unfold settleOne found?
  cases hf : fetched.get? g with
  | none =>
    dsimp only [Option.none_or]
    cases s.1.get? g <;> rfl
  | some rows => simp [Cache.get?_insert]

/-- Taking in one grouping does not change what is found for any. -/
theorem found?_settleOne :
    found? fetched (settleOne fetched s g).1 h = found? fetched s.1 h := by
  rw [found?, get?_settleOne]
  by_cases hg : h = g
  · subst hg
    rw [if_pos rfl, found?]
    cases fetched.get? h <;> rfl
  · rw [if_neg hg, found?]

end

section

variable (fetched : Memo Grouping (List Row)) (gs : List Grouping) (s : Cache × Results)

theorem signature_foldl_settleOne :
    (gs.foldl (settleOne fetched) s).1.signature = s.1.signature := by
  induction gs generalizing s with
  | nil => rfl
  | cons g gs ih => rw [List.foldl_cons, ih, signature_settleOne]

theorem get?_foldl_settleOne (h : Grouping) :
    (gs.foldl (settleOne fetched) s).1.get? h =
      if h ∈ gs then found? fetched s.1 h else s.1.get? h := by
  induction gs generalizing s with
  | nil => simp
  | cons g gs ih =>
    rw [List.foldl_cons, ih, found?_settleOne, get?_settleOne]
    by_cases hm : h ∈ gs
    · simp [hm]
    · by_cases hg : h = g <;> simp [hm, hg]

theorem results_get?_foldl_settleOne (h : Grouping) :
    (gs.foldl (settleOne fetched) s).2.get? h =
      if h ∈ gs then some ((found? fetched s.1 h).getD []) else s.2.get? h := by
  induction gs generalizing s with
  | nil => simp
  | cons g gs ih =>
    rw [List.foldl_cons, ih, found?_settleOne, results_settleOne]
    by_cases hm : h ∈ gs
    · simp [hm]
    · by_cases hg : h = g
      · subst hg
        cases hf : found? fetched s.1 h <;>
          simp [hm, Results.get?_insert, Results.get?_insertFailed]
      · cases hf : found? fetched s.1 g <;>
          simp [hm, hg, Results.get?_insert, Results.get?_insertFailed]

theorem groupings_settleOne {g : Grouping} (hnew : s.2.get? g = none) :
    (settleOne fetched s g).2.groupings = s.2.groupings ++ [g] := by
  rw [results_settleOne]
  cases found? fetched s.1 g with
  | none =>
    change (s.2.insertFailed g).groupings = _
    rw [Results.groupings_insertFailed, hnew]
    rfl
  | some rows =>
    change (s.2.insert g rows).groupings = _
    rw [Results.groupings_insert, hnew]
    rfl

theorem results_get?_settleOne_of_ne {g h : Grouping} (hne : h ≠ g) :
    (settleOne fetched s g).2.get? h = s.2.get? h := by
  have hone := results_get?_foldl_settleOne fetched [g] s h
  rw [if_neg (mt List.mem_singleton.mp hne)] at hone
  exact hone

/-- Groupings that are not known yet are listed in the order in which they are taken in. -/
theorem groupings_foldl_settleOne (hn : gs.Nodup) (hnew : ∀ g ∈ gs, s.2.get? g = none) :
    (gs.foldl (settleOne fetched) s).2.groupings = s.2.groupings ++ gs := by
  induction gs generalizing s with
  | nil => simp
  | cons g gs ih =>
    obtain ⟨hg, hgs⟩ := List.nodup_cons.mp hn
    have hstill : ∀ h ∈ gs, (settleOne fetched s g).2.get? h = none := by
      intro h hh
      have hne : h ≠ g := ne_of_mem_of_not_mem hh hg
      rw [results_get?_settleOne_of_ne _ _ hne]
      exact hnew h (List.mem_cons_of_mem g hh)
    have hs : (settleOne fetched s g).2.groupings = s.2.groupings ++ [g] :=
      groupings_settleOne fetched s (hnew g List.mem_cons_self)
    rw [List.foldl_cons, ih _ hgs hstill, hs, List.append_assoc]
    rfl

theorem failed_foldl_settleOne : (gs.foldl (settleOne fetched) s).2.failed =
    s.2.failed ++ gs.filter fun g => (found? fetched s.1 g).isNone := by
  induction gs generalizing s with
  | nil => simp
  | cons g gs ih =>
    rw [List.foldl_cons, ih, results_settleOne]
    simp only [found?_settleOne]
    cases hf : found? fetched s.1 g <;> simp [hf]

end

/-- Takes in the rows of one task, if it brought some. -/
def takeEnd (m : Memo Grouping (List Row)) (e : Grouping × TaskEnd) : Memo Grouping (List Row) :=
  match e.2.rows? with
  | some rows => m.insert e.1 rows
  | none => m

theorem fetched_eq (ends : TaskEnds) : fetched ends = ends.foldl takeEnd .empty := rfl

theorem get?_takeEnd (m : Memo Grouping (List Row)) (e : Grouping × TaskEnd) (g : Grouping) :
    (takeEnd m e).get? g = if g = e.1 then e.2.rows?.or (m.get? g) else m.get? g := by
  unfold takeEnd
  cases e.2.rows? with
  | none => simp
  | some rows => simp [Memo.get?_insert]

theorem get?_foldl_takeEnd_of_notMem {ends : TaskEnds} {g : Grouping}
    (hg : g ∉ ends.map Prod.fst) (m : Memo Grouping (List Row)) :
    (ends.foldl takeEnd m).get? g = m.get? g := by
  induction ends generalizing m with
  | nil => rfl
  | cons e ends ih =>
    simp only [List.map_cons, List.mem_cons, not_or] at hg
    rw [List.foldl_cons, ih hg.2, get?_takeEnd, if_neg hg.1]

theorem get?_foldl_takeEnd {ends : TaskEnds} {g : Grouping} {te : TaskEnd}
    (hn : (ends.map Prod.fst).Nodup) (he : (g, te) ∈ ends) (m : Memo Grouping (List Row)) :
    (ends.foldl takeEnd m).get? g = te.rows?.or (m.get? g) := by
  induction ends generalizing m with
  | nil => simp at he
  | cons e ends ih =>
    simp only [List.map_cons, List.nodup_cons] at hn
    rw [List.foldl_cons]
    rcases List.mem_cons.mp he with rfl | he
    · rw [get?_foldl_takeEnd_of_notMem hn.1, get?_takeEnd, if_pos rfl]
    · have hg : g ≠ e.1 := by
        rintro rfl
        exact hn.1 (List.mem_map.mpr ⟨_, he, rfl⟩)
      rw [ih hn.2 he, get?_takeEnd, if_neg hg]

/-- Where each grouping has one task, it brings the rows. -/
theorem get?_fetched {ends : TaskEnds} {g : Grouping} {te : TaskEnd}
    (hn : (ends.map Prod.fst).Nodup) (he : (g, te) ∈ ends) :
    (fetched ends).get? g = te.rows? := by
  rw [fetched_eq, get?_foldl_takeEnd hn he]
  simp

theorem mem_of_get?_fetched {ends : TaskEnds} {g : Grouping} {rows : List Row}
    (hn : (ends.map Prod.fst).Nodup) (h : (fetched ends).get? g = some rows) :
    (g, TaskEnd.rows rows) ∈ ends := by
  by_cases hg : g ∈ ends.map Prod.fst
  · obtain ⟨⟨g', te⟩, he, rfl⟩ := List.mem_map.mp hg
    rw [get?_fetched hn he] at h
    cases te with
    | rows rs =>
      obtain rfl : rs = rows := by simpa [TaskEnd.rows?] using h
      exact he
    | error e => simp [TaskEnd.rows?] at h
    | lost report => simp [TaskEnd.rows?] at h
  · rw [fetched_eq, get?_foldl_takeEnd_of_notMem hg] at h
    simp at h

section

variable (r : Request) (c : Cache) (ends : TaskEnds)

theorem groupings_nodup : r.groupings.Nodup := Pivot.groupings_nodup ..

theorem missing_nodup : (r.missing c).Nodup := r.groupings_nodup.filter _

theorem missing_empty : r.missing .empty = r.groupings := by
  simp [missing, Cache.isValidFor, Cache.empty]

/-- What a batch has for a grouping once the cache is valid for it. -/
def taken? (g : Grouping) : Option (List Row) :=
  found? (fetched ends) (c.validate r.signature) g

@[simp] theorem signature_settle : (r.settle c ends).1.signature = some r.signature := by
  rw [settle, signature_foldl_settleOne, Cache.signature_validate]

theorem cache_get?_settle (g : Grouping) : (r.settle c ends).1.get? g =
    if g ∈ r.groupings then r.taken? c ends g else (c.validate r.signature).get? g :=
  get?_foldl_settleOne ..

theorem results_get?_settle (g : Grouping) : (r.settle c ends).2.get? g =
    if g ∈ r.groupings then some ((r.taken? c ends g).getD []) else none :=
  results_get?_foldl_settleOne ..

theorem groupings_settle : (r.settle c ends).2.groupings = r.groupings := by
  have hnew : ∀ g ∈ r.groupings, Results.empty.get? g = none := fun g _ => rfl
  exact groupings_foldl_settleOne _ _ (c.validate r.signature, .empty) r.groupings_nodup hnew

theorem failed_settle : (r.settle c ends).2.failed =
    r.groupings.filter fun g => (r.taken? c ends g).isNone :=
  failed_foldl_settleOne ..

end

end Request

end ChartQuery
