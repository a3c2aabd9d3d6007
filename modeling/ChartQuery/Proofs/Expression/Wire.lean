import ChartQuery.Expression.Wire
import ChartQuery.Proofs.Expression.Leaves
import ChartQuery.Proofs.Json.Written
import ChartQuery.Proofs.Text.Digits

namespace ChartQuery

open Json (str? int64?)

theorem Literal.ofJson?_toJson_iff {l : Literal} : ofJson? l.toJson = some l ↔ l.IsFinite := by
  cases l with
  | null => simp [toJson, ofJson?, IsFinite]
  | bool b => simp [toJson, ofJson?, IsFinite]
  | text s => simp [toJson, ofJson?, IsFinite]
  | number x =>
    rw [toJson, Json.ofReal, IsFinite]
    cases x.isFinite with
    | true => simp [ofJson?]
    | false => simp [ofJson?]

theorem Text.natOfDigits_toString (n : Nat) : natOfDigits (toString n).toList = n := by
  rw [Nat.toString_eq_ofList_toDigits, String.toList_ofList, natOfDigits_toDigits]

namespace Legend

theorem readIndex?_indexText (i : UInt32) : readIndex? (indexText i) = some i := by
  have hi : i.toNat < UInt32.size := i.toNat_lt
  simp only [readIndex?, indexText, Text.natOfDigits_toString]
  rw [if_pos ⟨trivial, hi⟩, UInt32.ofNat_toNat]

theorem entryOfJson?_entryToJson (e : LegendEntry) : entryOfJson? (entryToJson e) = some e := by
  obtain ⟨name, color⟩ := e
  cases color with
  | none => rfl
  | some color => rfl

theorem put_of_forall_lt {i : UInt32} {e : LegendEntry} {entries : List (UInt32 × LegendEntry)}
    (h : ∀ p ∈ entries, p.1 < i) : put i e entries = entries ++ [(i, e)] := by
  induction entries with
  | nil => rfl
  | cons p entries ih =>
    obtain ⟨j, f⟩ := p
    rw [List.forall_mem_cons] at h
    have hij : ¬ i < j := UInt32.lt_asymm h.1
    rw [put, if_neg hij, if_pos h.1, ih h.2, List.cons_append]

/-- Entries that come in ascending order are all kept. -/
theorem entries_foldl_insert {l : Legend} {entries : List (UInt32 × LegendEntry)}
    (h : (l.entries ++ entries).Pairwise (·.1 < ·.1)) :
    (entries.foldl (fun l p => l.insert p.1 p.2) l).entries = l.entries ++ entries := by
  induction entries generalizing l with
  | nil => simp
  | cons p entries ih =>
    have hp : ∀ q ∈ l.entries, q.1 < p.1 := by
      intro q hq
      exact (List.pairwise_append.1 h).2.2 q hq p List.mem_cons_self
    have hinsert : (l.insert p.1 p.2).entries = l.entries ++ [p] := put_of_forall_lt hp
    rw [List.foldl_cons, ih, hinsert, List.append_assoc, List.singleton_append]
    rw [hinsert, List.append_assoc, List.singleton_append]
    exact h

theorem ofList_entries (l : Legend) : ofList l.entries = l := by
  have hall : (ofList l.entries).entries = l.entries := entries_foldl_insert l.ascending
  cases h : ofList l.entries
  cases l
  simp_all

theorem mapM_memberOfJson? (entries : List (UInt32 × LegendEntry)) :
    (entries.map fun p => (indexText p.1, entryToJson p.2)).mapM memberOfJson? = some entries := by
  induction entries with
  | nil => rfl
  | cons p entries ih =>
    rw [List.map_cons, Json.mapM_eq_some_cons]
    exact ⟨by simp [memberOfJson?, readIndex?_indexText, entryOfJson?_entryToJson], ih⟩

theorem ofJson?_toJson_iff {passage : Passage} {l : Legend} :
    ofJson? passage l.toJson = some l ↔ (passage = .held → l.entries = []) := by
  have hback := mapM_memberOfJson? l.entries
  have hsame := l.ofList_entries
  rw [toJson]
  cases hentries : l.entries with
  | nil =>
    rw [hentries] at hsame
    simp [ofJson?, ← hsame, ofList]
  | cons p entries =>
    cases passage with
    | held => simp [ofJson?]
    | direct =>
      rw [hentries, List.map_cons] at hback
      rw [hentries] at hsame
      simp [ofJson?, hback, hsame]

end Legend

namespace PaintMap

theorem pair?_rangeToJson_iff {r : Binary64 × Binary64} :
    Json.pair? Json.real? Json.real? (rangeToJson r) = some r ↔
      r.1.isFinite = true ∧ r.2.isFinite = true := by
  obtain ⟨lo, hi⟩ := r
  simp [rangeToJson, Json.pair?, Option.bind_eq_some_iff, Json.real?_ofReal_eq_some_iff]

theorem ofJson?_toJson_iff {passage : Passage} {m : PaintMap} :
    ofJson? passage m.toJson = some m ↔
      m.IsFinite ∧ (passage = .held → m.legend.entries = []) := by
  have hused := Json.list?_map (fun i : UInt32 => .int i.toNat) Json.uint32?_toNat m.used
  rw [IsFinite, ← pair?_rangeToJson_iff, ← pair?_rangeToJson_iff, ← Legend.ofJson?_toJson_iff]
  simp only [ofJson?, toJson, Json.required_cons, Json.withDefault_cons, String.reduceEq, if_true,
    if_false, Json.str?, Json.uint32?_toNat, hused]
  -- What is left to be read are the two ranges and the legend.
  generalize Json.pair? Json.real? Json.real? (rangeToJson m.domainX) = domainX
  generalize Json.pair? Json.real? Json.real? (rangeToJson m.domainY) = domainY
  generalize Legend.ofJson? passage m.legend.toJson = legend
  cases domainX <;> cases domainY <;> cases legend <;> cases m <;> simp [and_assoc]

end PaintMap

theorem Expression.ofJson?_obj {passage : Passage} {op target : String} {elements : List Json} :
    ofJson? passage (.obj [("op", .str op), ("params", .arr elements), ("as", .str target)]) =
      (Param.listOfJson? passage elements).map fun params => ⟨op, params, target⟩ := by
  rw [ofJson?]
  split
  · next es h =>
    cases h
    cases Param.listOfJson? passage elements <;> rfl
  · next h => exact absurd rfl (h elements)

theorem Expression.toJson_ne_null (e : Expression) : e.toJson ≠ .null := by
  cases e
  simp [toJson]

theorem Json.get?_value_tagged {tag : String} {v : Json} :
    (tagged tag v).get? "value" = some v := rfl

theorem Json.required_type_tagged {passage : Passage} {tag : String} {v : Json} :
    (tagged tag v).required "type" (word? passage) = some tag := by
  cases passage <;> rfl

theorem Param.ofJson?_tagged {passage : Passage} {tag : String} {v : Json} :
    ofJson? passage (.tagged tag v) =
      match tag with
      | "field" => (str? v).map .field
      | "expression" => (Expression.ofJson? passage v).map .expression
      | "value" => (Literal.ofJson? v).map .value
      | "constant" => (Literal.ofJson? v).map .constant
      | "format" => (str? v).map .format
      | "offset" => (int64? v).map .offset
      | "map" => (PaintMap.ofJson? passage v).map .map
      | _ => none := by
  have hv : (Json.tagged tag v).get? "value" = some v := Json.get?_value_tagged
  rw [ofJson?]
  simp only [Json.required_type_tagged]
  split <;> simp_all

mutual

theorem Expression.ofJson?_toJson_iff_leaves (passage : Passage) : ∀ e : Expression,
    Expression.ofJson? passage e.toJson = some e ↔
      ∀ p ∈ e.leaves, p.IsFinite ∧ (passage = .held → p.IsPlain)
  | ⟨op, params, target⟩ => by
    rw [Expression.toJson, Expression.ofJson?_obj, Expression.leaves,
      ← Param.listOfJson?_listToJson_iff passage params, Option.map_eq_some_iff]
    simp

theorem Param.ofJson?_toJson_iff (passage : Passage) : ∀ p : Param,
    Param.ofJson? passage p.toJson = some p ↔
      ∀ q ∈ p.leaves, q.IsFinite ∧ (passage = .held → q.IsPlain)
  | .expression e => by
    rw [Param.toJson, Param.ofJson?_tagged, Param.leaves,
      ← Expression.ofJson?_toJson_iff_leaves passage e]
    simp
  | .field _ | .format _ => by
    simp [Param.toJson, Param.ofJson?_tagged, Json.str?, Param.leaves, Param.IsFinite,
      Param.IsPlain]
  | .value _ | .constant _ => by
    simp [Param.toJson, Param.ofJson?_tagged, Literal.ofJson?_toJson_iff, Param.leaves,
      Param.IsFinite, Param.IsPlain]
  | .offset _ => by
    simp [Param.toJson, Param.ofJson?_tagged, Json.int64?_toInt, Param.leaves, Param.IsFinite,
      Param.IsPlain]
  | .map _ => by
    simp [Param.toJson, Param.ofJson?_tagged, PaintMap.ofJson?_toJson_iff, Param.leaves,
      Param.IsFinite, Param.IsPlain]

theorem Param.listOfJson?_listToJson_iff (passage : Passage) : ∀ params : List Param,
    Param.listOfJson? passage (Param.listToJson params) = some params ↔
      ∀ p ∈ Param.leavesIn params, p.IsFinite ∧ (passage = .held → p.IsPlain)
  | [] => by simp [Param.listToJson, Param.listOfJson?, Param.leavesIn]
  | p :: params => by
    have hp := Param.ofJson?_toJson_iff passage p
    have hparams := Param.listOfJson?_listToJson_iff passage params
    rw [Param.leavesIn, List.forall_mem_append, ← hp, ← hparams, Param.listToJson,
      Param.listOfJson?]
    cases Param.ofJson? passage p.toJson with
    | none => simp
    | some q => cases Param.listOfJson? passage (Param.listToJson params) <;> simp

end

theorem Expression.ofJson?_toJson_iff {passage : Passage} {e : Expression} :
    ofJson? passage e.toJson = some e ↔ e.IsFinite ∧ (passage = .held → e.IsPlain) := by
  rw [ofJson?_toJson_iff_leaves, IsFinite, IsPlain]
  constructor
  · intro h
    constructor
    · intro p hp
      exact (h p hp).1
    · intro hheld p hp
      exact (h p hp).2 hheld
  · rintro ⟨hfinite, hplain⟩ p hp
    constructor
    · exact hfinite p hp
    · intro hheld
      exact hplain hheld p hp

end ChartQuery
