import ChartQuery.Proofs.Distinct
import ChartQuery.Proofs.Pivot.Settling
import Mathlib.Data.Set.Card

namespace ChartQuery

/-- An event of a history that nothing has ended since. Whether a later event ends it may depend on
all that had happened before. -/
def Stands {α : Type} (ends : List α → α → Prop) (history : List α) (x : α) : Prop :=
  ∃ before since, history = before ++ x :: since ∧
    ∀ earlier e later, since = earlier ++ e :: later → ¬ ends (before ++ x :: earlier) e

section Stands

variable {α : Type} {ends : List α → α → Prop} {history : List α} {x e : α}

theorem append_cons_eq_concat_iff {xs ys zs : List α} {y z : α} :
    xs ++ y :: ys = zs ++ [z] ↔
      ys = [] ∧ xs = zs ∧ y = z ∨ ∃ ys', ys = ys' ++ [z] ∧ xs ++ y :: ys' = zs := by
  rcases List.eq_nil_or_concat ys with rfl | ⟨ys', w, rfl⟩
  · simp
  · have hassoc : xs ++ y :: ys'.concat w = (xs ++ y :: ys') ++ [w] := by simp
    rw [hassoc, List.append_singleton_inj, List.concat_eq_append]
    constructor
    · rintro ⟨hxs, rfl⟩
      exact .inr ⟨ys', rfl, hxs⟩
    · rintro (⟨hnil, -⟩ | ⟨ys'', hys, hxs⟩)
      · simp at hnil
      · obtain ⟨rfl, rfl⟩ := List.append_singleton_inj.mp hys
        exact ⟨hxs, rfl⟩

theorem not_stands_nil : ¬ Stands ends [] x := by
  rintro ⟨before, since, h, -⟩
  simp at h

/-- What has just happened stands, and what stood still does unless this ended it. -/
theorem stands_concat :
    Stands ends (history ++ [e]) x ↔ e = x ∨ Stands ends history x ∧ ¬ ends history e := by
  constructor
  · rintro ⟨before, since, hsplit, hsince⟩
    rcases append_cons_eq_concat_iff.mp hsplit.symm with ⟨-, -, rfl⟩ | ⟨since', rfl, rfl⟩
    · exact .inl rfl
    · refine .inr ⟨⟨before, since', rfl, fun earlier d later h => ?_⟩, hsince since' e [] rfl⟩
      exact hsince earlier d (later ++ [e]) (by simp [h])
  · rintro (rfl | ⟨⟨before, since, rfl, hsince⟩, hend⟩)
    · exact ⟨history, [], rfl, by simp⟩
    · refine ⟨before, since ++ [e], by simp, fun earlier d later h => ?_⟩
      rcases append_cons_eq_concat_iff.mp h.symm with ⟨-, rfl, rfl⟩ | ⟨later', rfl, hlater⟩
      · exact hend
      · exact hsince earlier d later' hlater.symm

end Stands

namespace Memo

variable {κ ν : Type} [BEq κ] [LawfulBEq κ]

theorem mem_keys_iff {m : Memo κ ν} {k : κ} : k ∈ m.keys ↔ (m.get? k).isSome = true := by
  simp [keys, get?, List.lookup_isSome_iff]

theorem keys_insert_nodup {m : Memo κ ν} (h : m.keys.Nodup) (k : κ) (v : ν) :
    (m.insert k v).keys.Nodup := by
  rw [keys_insert]
  split
  case isTrue => exact h
  case isFalse hk =>
    rw [← List.concat_eq_append]
    exact h.concat hk

omit [BEq κ] [LawfulBEq κ] in
theorem size_eq_length_keys (m : Memo κ ν) : m.size = m.keys.length := (List.length_map _).symm

end Memo

namespace Cache

/-- What is done with a cache. -/
inductive Use where
  | validate (s : Signature)
  | isValidFor (s : Signature)
  | insert (g : Grouping) (rows : List Row)
  | get (g : Grouping)
  | contains (g : Grouping)
  | clear
  deriving DecidableEq, Repr

inductive Answer where
  | done
  | truth (b : Bool)
  | rows (rows? : Option (List Row))
  deriving DecidableEq, Repr

/-- The answer to a use, and the cache after it. A validation says if the entries were kept. -/
def use (c : Cache) : Use → Answer × Cache
  | .validate s => (.truth (c.isValidFor s), c.validate s)
  | .isValidFor s => (.truth (c.isValidFor s), c)
  | .insert g rows => (.done, c.insert g rows)
  | .get g => (.rows (c.get? g), c)
  | .contains g => (.truth (c.contains g), c)
  | .clear => (.done, c.clear)

/-- A new cache after a history of uses. -/
def after (history : List Use) : Cache := history.foldl (fun c u => (c.use u).2) .empty

/-- The signature in force: it was validated, and since then none was and nothing was cleared. -/
def InForce (history : List Use) (s : Signature) : Prop :=
  Stands (fun _ u => u = .clear ∨ ∃ t, u = .validate t) history (.validate s)

/-- A use that drops all rows: a clear, or the validation of a signature that is not in force. -/
def Drops (history : List Use) (u : Use) : Prop :=
  u = .clear ∨ ∃ s, u = .validate s ∧ ¬ InForce history s

/-- The rows that were last inserted for a grouping, if nothing has dropped them since. -/
def Keeps (history : List Use) (g : Grouping) (rows : List Row) : Prop :=
  Stands (fun past u => Drops past u ∨ ∃ rows', u = .insert g rows') history (.insert g rows)

/-- The answer to a use that the history calls for. -/
def Answers (history : List Use) : Use → Answer → Prop
  | .validate s, .truth b => b = true ↔ InForce history s
  | .isValidFor s, .truth b => b = true ↔ InForce history s
  | .get g, .rows rows? => ∀ rows, rows? = some rows ↔ Keeps history g rows
  | .contains g, .truth b => b = true ↔ ∃ rows, Keeps history g rows
  | .insert _ _, .done => True
  | .clear, .done => True
  | _, _ => False

variable {history : List Use} {u : Use} {s : Signature} {g : Grouping} {rows : List Row}

theorem after_concat : after (history ++ [u]) = ((after history).use u).2 := by
  rw [after, List.foldl_append]
  rfl

theorem signature_after_eq_some_iff : (after history).signature = some s ↔ InForce history s := by
  induction history using List.reverseRecOn with
  | nil => exact iff_of_false (by simp [after, empty]) not_stands_nil
  | append_singleton history u ih =>
    rw [after_concat, InForce, stands_concat, ← InForce, ← ih]
    cases u with
    | validate t => simp [use]
    | isValidFor t => simp [use]
    | insert g rows => simp [use, Cache.insert]
    | get g => simp [use]
    | contains g => simp [use]
    | clear => simp [use, Cache.clear, empty]

theorem isValidFor_after_iff : (after history).isValidFor s = true ↔ InForce history s := by
  rw [isValidFor_iff, signature_after_eq_some_iff]

theorem get?_after_eq_some_iff : (after history).get? g = some rows ↔ Keeps history g rows := by
  induction history using List.reverseRecOn with
  | nil => exact iff_of_false (by simp [after, empty, get?]) not_stands_nil
  | append_singleton history u ih =>
    rw [after_concat, Keeps, stands_concat, ← Keeps, ← ih]
    cases u with
    | validate t => simp [use, get?_validate, Drops, ← isValidFor_after_iff, and_comm]
    | isValidFor t => simp [use, Drops]
    | insert g' rows' =>
      by_cases hg : g = g'
      · simp [use, get?_insert, hg, Drops]
      · simp [use, get?_insert, hg, Ne.symm hg, Drops]
    | get g => simp [use, Drops]
    | contains g => simp [use, Drops]
    | clear => simp [use, Drops, Cache.clear, empty, get?]

theorem contains_after_iff : (after history).contains g = true ↔ ∃ rows, Keeps history g rows := by
  have hsome : (after history).contains g = ((after history).get? g).isSome := rfl
  simp only [hsome, Option.isSome_iff_exists, get?_after_eq_some_iff]

theorem keys_after_nodup : (after history).entries.keys.Nodup := by
  induction history using List.reverseRecOn with
  | nil => exact .nil
  | append_singleton history u ih =>
    rw [after_concat]
    cases u with
    | validate t =>
      change ((after history).validate t).entries.keys.Nodup
      rw [validate]
      split
      case isTrue => exact ih
      case isFalse => exact .nil
    | insert g rows => exact Memo.keys_insert_nodup ih g rows
    | clear => exact .nil
    | isValidFor t => exact ih
    | get g => exact ih
    | contains g => exact ih

/-- A cache answers from its history alone. -/
theorem answers_after (history : List Use) :
    (∀ u, Answers history u ((after history).use u).1) ∧
      (after history).size = {g | ∃ rows, Keeps history g rows}.ncard := by
  constructor
  · intro u
    cases u with
    | validate s => exact isValidFor_after_iff
    | isValidFor s => exact isValidFor_after_iff
    | insert g rows => exact trivial
    | get g => exact fun rows => get?_after_eq_some_iff
    | contains g => exact contains_after_iff
    | clear => exact trivial
  · have hkeys : {g | ∃ rows, Keeps history g rows} =
        ((after history).entries.keys.toFinset : Set Grouping) := by
      ext g
      rw [Set.mem_ofPred_eq, ← contains_after_iff, List.coe_toFinset, Set.mem_ofPred_eq,
        Memo.mem_keys_iff]
      rfl
    rw [hkeys, Set.ncard_coe_finset, List.toFinset_card_of_nodup keys_after_nodup]
    exact Memo.size_eq_length_keys _

/-- The first validation drops what was inserted before it, and repeating it drops nothing. -/
example :
    (after [.insert ⟨[], []⟩ [], .validate ⟨["Region"], [], [], true, 1⟩,
      .insert ⟨["Region"], []⟩ [], .validate ⟨["Region"], [], [], true, 1⟩]).entries.entries =
        [(⟨["Region"], []⟩, [])] := by decide

end Cache

namespace Results

/-- What is recorded of a grouping. -/
inductive Record where
  | rows (g : Grouping) (rows : List Row)
  | failure (g : Grouping)
  deriving DecidableEq, Repr

namespace Record

def grouping : Record → Grouping
  | .rows g _ => g
  | .failure g => g

/-- What the record reads as. -/
def read : Record → List Row
  | .rows _ found => found
  | .failure _ => []

def failed? : Record → Option Grouping
  | .rows .. => none
  | .failure g => some g

theorem failed?_eq_some_iff {e : Record} {g : Grouping} : e.failed? = some g ↔ e = .failure g := by
  cases e <;> simp [failed?]

end Record

def record (r : Results) : Record → Results
  | .rows g rows => r.insert g rows
  | .failure g => r.insertFailed g

/-- New results after some records. -/
def ofRecords (records : List Record) : Results := records.foldl record .empty

/-- A record after which there is none of its grouping. -/
def IsLast (records : List Record) (e : Record) : Prop :=
  Stands (fun _ d => d.grouping = e.grouping) records e

/-- The results have the groupings in the order of their first records, once each, and for each the
rows of its last record. -/
structure KeepsRows (records : List Record) (r : Results) : Prop where
  groupings : Firsts id (records.map Record.grouping) r.groupings
  groupings_nodup : r.groupings.Nodup
  mem_groupings : ∀ g, g ∈ r.groupings ↔ (r.get? g).isSome = true
  size : r.size = r.groupings.length
  size_entries : r.entries.size = r.size
  get? : ∀ g rows, r.get? g = some rows ↔ ∃ e, IsLast records e ∧ e.grouping = g ∧ e.read = rows

/-- The groupings whose last record is a failure are listed, once each. -/
structure KeepsFailures (records : List Record) (r : Results) : Prop where
  failed_nodup : r.failed.Nodup
  mem_failed : ∀ g, g ∈ r.failed ↔ IsLast records (.failure g)

/-- Nothing is recorded for a grouping after a failure of it. -/
def FailuresAreLast (records : List Record) : Prop :=
  records.Pairwise fun e d => ∀ g, e = .failure g → d.grouping ≠ g

variable {records : List Record} {r : Results} {e : Record} {g h : Grouping} {rows : List Row}

theorem ofRecords_concat : ofRecords (records ++ [e]) = (ofRecords records).record e := by
  rw [ofRecords, List.foldl_append]
  rfl

theorem get?_record :
    (r.record e).get? g = if g = e.grouping then some e.read else r.get? g := by
  cases e with
  | rows h rows => exact Results.get?_insert r h g rows
  | failure h => exact Results.get?_insertFailed r h g

theorem groupings_record : (r.record e).groupings =
    if (r.get? e.grouping).isSome then r.groupings else r.groupings ++ [e.grouping] := by
  cases e with
  | rows g rows => exact r.groupings_insert g rows
  | failure g => exact r.groupings_insertFailed g

theorem failed_record : (r.record e).failed = r.failed ++ e.failed?.toList := by
  cases e with
  | rows g rows => exact (List.append_nil _).symm
  | failure g => rfl

/-- The groupings are those that have rows, once each. -/
structure Agrees (r : Results) : Prop where
  nodup : r.groupings.Nodup
  keys_nodup : r.entries.keys.Nodup
  mem_iff : ∀ g, g ∈ r.groupings ↔ (r.get? g).isSome = true

theorem agrees_empty : empty.Agrees := by
  constructor
  · exact List.nodup_nil
  · exact List.nodup_nil
  · intro g
    simp [empty, Results.get?]

/-- A grouping without rows is not listed yet, so it can be listed last. -/
theorem Agrees.insert (h : r.Agrees) (g : Grouping) (rows : List Row) :
    (r.insert g rows).Agrees := by
  constructor
  · rw [groupings_insert]
    split
    case isTrue => exact h.nodup
    case isFalse hnew =>
      have hg : g ∉ r.groupings := mt (h.mem_iff g).mp hnew
      rw [← List.concat_eq_append]
      exact h.nodup.concat hg
  · exact Memo.keys_insert_nodup h.keys_nodup g rows
  · intro k
    rw [groupings_insert, Results.get?_insert]
    by_cases hk : k = g
    · subst hk
      rw [if_pos rfl]
      split
      case isTrue hold => exact iff_of_true ((h.mem_iff k).mpr hold) rfl
      case isFalse => exact iff_of_true (by simp) rfl
    · rw [if_neg hk, ← h.mem_iff k]
      split
      case isTrue => exact Iff.rfl
      case isFalse => simp [hk]

theorem Agrees.record (h : r.Agrees) (e : Record) : (r.record e).Agrees := by
  cases e with
  | rows g rows => exact h.insert g rows
  | failure g =>
    have hinsert := h.insert g []
    exact ⟨hinsert.nodup, hinsert.keys_nodup, hinsert.mem_iff⟩

theorem agrees_ofRecords (records : List Record) : (ofRecords records).Agrees := by
  induction records using List.reverseRecOn with
  | nil => exact agrees_empty
  | append_singleton records e ih =>
    rw [ofRecords_concat]
    exact ih.record e

theorem Agrees.size_entries (h : r.Agrees) : r.entries.size = r.size := by
  have hperm : r.entries.keys.Perm r.groupings := by
    refine (List.perm_ext_iff_of_nodup h.keys_nodup h.nodup).mpr fun g => ?_
    rw [h.mem_iff, Memo.mem_keys_iff]
    rfl
  rw [Memo.size_eq_length_keys]
  exact hperm.length_eq

theorem groupings_ofRecords (records : List Record) :
    (ofRecords records).groupings = distinct (records.map Record.grouping) := by
  induction records using List.reverseRecOn with
  | nil => rfl
  | append_singleton records e ih =>
    have hknown : ((ofRecords records).get? e.grouping).isSome = true ↔
        e.grouping ∈ records.map Record.grouping := by
      rw [← (agrees_ofRecords records).mem_iff, ih, mem_distinct]
    rw [ofRecords_concat, groupings_record, ih, List.map_append, List.map_singleton]
    by_cases he : e.grouping ∈ records.map Record.grouping
    · rw [if_pos (hknown.mpr he)]
      exact (distinctBy_concat_of_again ⟨_, he, rfl⟩).symm
    · have hfresh : ∀ g ∈ records.map Record.grouping, id g ≠ id e.grouping := by
        rintro g hg rfl
        exact he hg
      rw [if_neg (mt hknown.mp he)]
      exact (distinctBy_concat_of_fresh hfresh).symm

theorem get?_ofRecords_eq_some_iff :
    (ofRecords records).get? g = some rows ↔
      ∃ e, IsLast records e ∧ e.grouping = g ∧ e.read = rows := by
  induction records using List.reverseRecOn with
  | nil =>
    refine iff_of_false (by simp [ofRecords, empty, Results.get?]) ?_
    rintro ⟨e, he, -⟩
    exact not_stands_nil he
  | append_singleton records e ih =>
    rw [ofRecords_concat, get?_record]
    simp only [IsLast, stands_concat]
    by_cases hg : g = e.grouping
    · rw [if_pos hg, Option.some.injEq]
      constructor
      · intro hread
        exact ⟨e, .inl rfl, hg.symm, hread⟩
      · rintro ⟨e', rfl | ⟨-, hne⟩, hg', hread⟩
        · exact hread
        · exact absurd (hg.symm.trans hg'.symm) hne
    · rw [if_neg hg, ih]
      constructor
      · rintro ⟨e', hlast, hg', hread⟩
        exact ⟨e', .inr ⟨hlast, fun heq => hg (hg'.symm.trans heq.symm)⟩, hg', hread⟩
      · rintro ⟨e', rfl | ⟨hlast, -⟩, hg', hread⟩
        · exact absurd hg'.symm hg
        · exact ⟨e', hlast, hg', hread⟩

theorem failed_ofRecords (records : List Record) :
    (ofRecords records).failed = records.filterMap Record.failed? := by
  induction records using List.reverseRecOn with
  | nil => rfl
  | append_singleton records e ih =>
    rw [ofRecords_concat, failed_record, ih, List.filterMap_append]
    cases e with
    | rows g rows => rfl
    | failure g => rfl

theorem keepsRows_ofRecords (records : List Record) : KeepsRows records (ofRecords records) where
  groupings := firsts_iff.mpr (groupings_ofRecords records)
  groupings_nodup := (agrees_ofRecords records).nodup
  mem_groupings := (agrees_ofRecords records).mem_iff
  size := rfl
  size_entries := (agrees_ofRecords records).size_entries
  get? _ _ := get?_ofRecords_eq_some_iff

theorem IsLast.mem (h : IsLast records e) : e ∈ records := by
  obtain ⟨before, since, rfl, -⟩ := h
  simp

theorem mem_failed_ofRecords : g ∈ (ofRecords records).failed ↔ .failure g ∈ records := by
  simp [failed_ofRecords, Record.failed?_eq_some_iff]

theorem FailuresAreLast.isLast (h : FailuresAreLast records) (hg : .failure g ∈ records) :
    IsLast records (.failure g) := by
  obtain ⟨before, since, rfl⟩ := List.append_of_mem hg
  have hsince := (List.pairwise_cons.mp (List.pairwise_append.mp h).2.1).1
  refine ⟨before, since, rfl, ?_⟩
  rintro earlier d later rfl
  exact hsince d (by simp) g rfl

/-- A listed failure is never taken back, and one that comes again is listed again. So a record of
its grouping that comes later makes the list wrong. -/
theorem KeepsFailures.failuresAreLast (h : KeepsFailures records (ofRecords records)) :
    FailuresAreLast records := by
  have hnodup := h.failed_nodup
  rw [failed_ofRecords] at hnodup
  refine List.pairwise_iff_forall_sublist.mpr ?_
  rintro e d hsublist g rfl hd
  have hlisted : g ∈ (ofRecords records).failed :=
    mem_failed_ofRecords.mpr (hsublist.subset (by simp))
  obtain ⟨before, since, rfl, hsince⟩ := (h.mem_failed g).mp hlisted
  -- The last failure of the grouping splits the records: this one is it, or comes before it.
  obtain ⟨first, rest, hsplit, hfirst, hrest⟩ := List.sublist_append_iff.mp hsublist
  cases first with
  | nil =>
    obtain rfl : rest = [.failure g, d] := hsplit.symm
    have hlater : d ∈ since := hrest.tail.subset (by simp)
    obtain ⟨earlier, later, rfl⟩ := List.append_of_mem hlater
    exact hsince earlier d later rfl hd
  | cons e first =>
    obtain rfl : Record.failure g = e := (List.cons.inj hsplit).1
    have hbefore : g ∈ before.filterMap Record.failed? :=
      List.mem_filterMap.mpr ⟨.failure g, hfirst.subset (by simp), rfl⟩
    rw [List.filterMap_append, List.nodup_append] at hnodup
    exact hnodup.2.2 g hbefore g (by simp [Record.failed?]) rfl

theorem FailuresAreLast.keepsFailures (h : FailuresAreLast records) :
    KeepsFailures records (ofRecords records) where
  failed_nodup := by
    rw [failed_ofRecords]
    refine List.pairwise_filterMap.mpr (h.imp ?_)
    intro e d hed g hg g' hg'
    obtain rfl := Record.failed?_eq_some_iff.mp hg
    obtain rfl := Record.failed?_eq_some_iff.mp hg'
    exact (hed g rfl).symm
  mem_failed g := by
    rw [mem_failed_ofRecords]
    exact ⟨h.isLast, IsLast.mem⟩

theorem keepsFailures_iff : KeepsFailures records (ofRecords records) ↔ FailuresAreLast records :=
  ⟨KeepsFailures.failuresAreLast, FailuresAreLast.keepsFailures⟩

/-- The rows are kept for every sequence of records, and all failures are listed in their order. So
the list is right just for the sequences in which nothing is recorded after a failure. -/
theorem keepsRows_and_keepsFailures_iff (records : List Record) :
    KeepsRows records (ofRecords records) ∧
      (ofRecords records).failed = records.filterMap Record.failed? ∧
      (KeepsFailures records (ofRecords records) ↔ FailuresAreLast records) :=
  ⟨keepsRows_ofRecords records, failed_ofRecords records, keepsFailures_iff⟩

/-- The rows of a grouping come after it has failed. -/
def answeredLater : List Record :=
  [.failure ⟨["Region"], []⟩, .rows ⟨["Region"], []⟩ [[("Region", .text "East")]]]

/-- A grouping that has rows is still listed as failed. -/
theorem not_keepsFailures_answeredLater :
    ¬ KeepsFailures answeredLater (ofRecords answeredLater) := by
  rw [keepsFailures_iff]
  intro h
  have hne := (List.pairwise_cons.mp h).1 (.rows ⟨["Region"], []⟩ [[("Region", .text "East")]])
  exact hne (by simp) ⟨["Region"], []⟩ rfl rfl

example : (ofRecords answeredLater).failed = [⟨["Region"], []⟩] ∧
    (ofRecords answeredLater).get? ⟨["Region"], []⟩ = some [[("Region", .text "East")]] := by decide

end Results

namespace Request

/-- What a batch records of a grouping: the rows that were found, or a failure. -/
def recordOf (g : Grouping) : Option (List Row) → Results.Record
  | some rows => .rows g rows
  | none => .failure g

theorem grouping_recordOf (g : Grouping) (rows? : Option (List Row)) :
    (recordOf g rows?).grouping = g := by
  cases rows? <;> rfl

theorem results_foldl_settleOne (fetched : Memo Grouping (List Row)) (gs : List Grouping)
    (s : Cache × Results) : (gs.foldl (settleOne fetched) s).2 =
      (gs.map fun g => recordOf g (found? fetched s.1 g)).foldl Results.record s.2 := by
  induction gs generalizing s with
  | nil => rfl
  | cons g gs ih =>
    rw [List.foldl_cons, ih, results_settleOne, List.map_cons, List.foldl_cons]
    simp only [found?_settleOne]
    cases found? fetched s.1 g <;> rfl

/-- The results of a batch list its failures rightly: it records each grouping once. -/
theorem keepsFailures_settle (r : Request) (c : Cache) (ends : TaskEnds) :
    Results.KeepsFailures (r.groupings.map fun g => recordOf g (r.taken? c ends g))
      (r.settle c ends).2 := by
  have hsettle : (r.settle c ends).2 =
      Results.ofRecords (r.groupings.map fun g => recordOf g (r.taken? c ends g)) :=
    results_foldl_settleOne ..
  rw [hsettle, Results.keepsFailures_iff, Results.FailuresAreLast, List.pairwise_map]
  refine r.groupings_nodup.imp ?_
  intro g h hgh k hk hhk
  rw [grouping_recordOf] at hhk
  have hgk : g = k := by
    rw [← grouping_recordOf g (r.taken? c ends g), hk]
    rfl
  exact hgh (hgk.trans hhk.symm)

end Request

end ChartQuery
