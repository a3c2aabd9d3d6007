import ChartQuery.Proofs.Compile.KnownFields
import ChartQuery.Proofs.Distinct

namespace ChartQuery

section Columns

variable {fid agg fid' agg' : String}

/-- The first key goes on where the second one ends, and the second aggregation says the rest of the
first column. -/
def Overlaps (fid agg fid' agg' : String) : Prop :=
  agg' ≠ "" ∧ ∃ rest, fid = fid' ++ "_" ++ rest ∧ agg' = outputKey rest (some agg)

theorem outputKey_empty (fid : String) : outputKey fid (some "") = fid := rfl

theorem outputKey_of_ne (fid : String) (h : agg ≠ "") :
    outputKey fid (some agg) = fid ++ "_" ++ agg := by
  rw [outputKey, if_neg h]

theorem Overlaps.outputKey_eq (h : Overlaps fid agg fid' agg') :
    outputKey fid (some agg) = outputKey fid' (some agg') := by
  obtain ⟨hne, rest, rfl, hrest⟩ := h
  rw [outputKey_of_ne fid' hne, hrest]
  by_cases hagg : agg = ""
  · rw [hagg, outputKey_empty, outputKey_empty]
  · rw [outputKey_of_ne _ hagg, outputKey_of_ne _ hagg]
    simp only [String.append_assoc]

theorem Overlaps.fid_ne (h : Overlaps fid agg fid' agg') : fid ≠ fid' := by
  obtain ⟨-, rest, rfl, -⟩ := h
  intro heq
  have hlength := congrArg String.length heq
  simp only [String.length_append] at hlength
  have hunderscore : "_".length = 1 := rfl
  omega

/-- A key that is longer than another with the same column overlaps with it. -/
theorem overlaps_of_append {rest : List Char} (hagg : agg ≠ "")
    (hfid : fid.toList = fid'.toList ++ rest)
    (hrest : '_' :: agg'.toList = rest ++ '_' :: agg.toList) :
    fid = fid' ∧ agg = agg' ∨ Overlaps fid agg fid' agg' := by
  cases rest with
  | nil =>
    refine .inl ⟨String.ext (by simpa using hfid), String.ext ?_⟩
    exact (List.cons.inj hrest).2.symm
  | cons c rest =>
    rw [List.cons_append, List.cons.injEq] at hrest
    obtain ⟨rfl, hrest⟩ := hrest
    refine .inr ⟨?_, .ofList rest, String.ext ?_, String.ext ?_⟩
    · rintro rfl
      simp at hrest
    · simp [hfid]
    · simp [outputKey_of_ne _ hagg, hrest]

/-- Two measures have the same column just if they are the same or overlap. -/
theorem outputKey_eq_iff : outputKey fid (some agg) = outputKey fid' (some agg') ↔
    fid = fid' ∧ agg = agg' ∨ Overlaps fid agg fid' agg' ∨ Overlaps fid' agg' fid agg := by
  constructor
  · intro h
    by_cases hagg : agg = ""
    · subst hagg
      by_cases hagg' : agg' = ""
      · subst hagg'
        exact .inl ⟨h, rfl⟩
      · rw [outputKey_empty, outputKey_of_ne _ hagg'] at h
        exact .inr (.inl ⟨hagg', agg', h, rfl⟩)
    · by_cases hagg' : agg' = ""
      · subst hagg'
        rw [outputKey_empty, outputKey_of_ne _ hagg] at h
        exact .inr (.inr ⟨hagg, agg, h.symm, rfl⟩)
      · rw [outputKey_of_ne _ hagg, outputKey_of_ne _ hagg'] at h
        have hchars := congrArg String.toList h
        simp only [String.toList_append, List.append_assoc] at hchars
        rcases List.append_eq_append_iff.mp hchars with ⟨rest, hfid, hrest⟩ | ⟨rest, hfid, hrest⟩
        · rcases overlaps_of_append hagg' hfid hrest with ⟨hf, ha⟩ | ho
          · exact .inl ⟨hf.symm, ha.symm⟩
          · exact .inr (.inr ho)
        · rcases overlaps_of_append hagg hfid hrest with hsame | ho
          · exact .inl hsame
          · exact .inr (.inl ho)
  · rintro (⟨rfl, rfl⟩ | h | h)
    · rfl
    · exact h.outputKey_eq
    · exact h.outputKey_eq.symm

/-- Aggregations that have names without underscores keep measures apart. -/
theorem not_overlaps_of_notMem (hagg : agg ≠ "") (hplain : '_' ∉ agg'.toList) :
    ¬ Overlaps fid agg fid' agg' := by
  rintro ⟨-, rest, -, rfl⟩
  rw [outputKey_of_ne _ hagg] at hplain
  simp at hplain

end Columns

namespace View

variable {v : View} {s : Settings} {p : Plan}

/-- The measure that a query asks for when a field stands on the measure shelf. -/
def measureOf (s : Settings) (f : Field) : Measure := .new f.fid (aggregation s f)

/-- One of the measures is the field under its aggregation. -/
def Asks (s : Settings) (measures : List Measure) (f : Field) : Prop :=
  ∃ m ∈ measures, m.field = f.fid ∧ m.agg = aggregation s f

/-- The fields write to one column, but differ in their keys or aggregations. -/
def Clash (s : Settings) (f g : Field) : Prop :=
  Overlaps f.fid (aggregation s f) g.fid (aggregation s g)

section Shelf

variable {fs : List Field} {f g : Field}

theorem measureOf_eq_iff : measureOf s f = measureOf s g ↔
    f.fid = g.fid ∧ aggregation s f = aggregation s g := by
  constructor
  · intro h
    exact ⟨congrArg Measure.field h, congrArg Measure.agg h⟩
  · rintro ⟨hfid, hagg⟩
    rw [measureOf, measureOf, hfid, hagg]

theorem output_eq_iff : (measureOf s f).output = (measureOf s g).output ↔
    measureOf s f = measureOf s g ∨ Clash s f g ∨ Clash s g f := by
  rw [measureOf_eq_iff]
  exact outputKey_eq_iff

/-- The measures of the query for a shelf: for each column the first one. -/
def queriedFor (s : Settings) (fs : List Field) : List Measure :=
  distinctBy Measure.output (fs.map (measureOf s))

theorem asks_queriedFor_iff_mem :
    Asks s (queriedFor s fs) f ↔ measureOf s f ∈ queriedFor s fs := by
  constructor
  · rintro ⟨m, hm, hfield, hagg⟩
    obtain ⟨g, -, rfl⟩ := List.mem_map.mp (mem_of_mem_distinctBy hm)
    rwa [measureOf_eq_iff.mpr ⟨hfield.symm, hagg.symm⟩]
  · intro hm
    exact ⟨_, hm, rfl, rfl⟩

/-- A measure is asked for just if the first one that writes to its column is the same. -/
theorem asks_queriedFor_iff : Asks s (queriedFor s fs) f ↔
    ∃ g, fs.find? (fun g => (measureOf s g).output == (measureOf s f).output) = some g ∧
      g.fid = f.fid ∧ aggregation s g = aggregation s f := by
  rw [asks_queriedFor_iff_mem, queriedFor, mem_distinctBy_iff, List.find?_map,
    Option.map_eq_some_iff]
  simp only [measureOf_eq_iff]
  rfl

/-- The first measure that writes to a column is asked for, whatever comes behind it. -/
theorem exists_asks_queriedFor (hf : f ∈ fs) : ∃ g ∈ fs,
    fs.find? (fun g => (measureOf s g).output == (measureOf s f).output) = some g ∧
      (measureOf s g).output = (measureOf s f).output ∧ Asks s (queriedFor s fs) g := by
  have hfound : (fs.find? fun g => (measureOf s g).output == (measureOf s f).output).isSome :=
    List.find?_isSome.mpr ⟨f, hf, BEq.rfl⟩
  obtain ⟨g, hg⟩ := Option.isSome_iff_exists.mp hfound
  have hsame : (measureOf s g).output = (measureOf s f).output := by
    simpa using List.find?_some hg
  exact ⟨g, List.mem_of_find?_eq_some hg, hg, hsame,
    asks_queriedFor_iff.mpr ⟨g, hsame ▸ hg, rfl, rfl⟩⟩

theorem asks_queriedFor_iff_of_find? {g : Field}
    (hg : fs.find? (fun g => (measureOf s g).output == (measureOf s f).output) = some g) :
    Asks s (queriedFor s fs) f ↔ g.fid = f.fid ∧ aggregation s g = aggregation s f := by
  rw [asks_queriedFor_iff, hg]
  simp only [Option.some.injEq, exists_eq_left']

theorem forall_asks_queriedFor_iff : (∀ f ∈ fs, Asks s (queriedFor s fs) f) ↔
    ∀ f ∈ fs, ∀ g ∈ fs, ¬ Clash s f g := by
  constructor
  · intro hall f hf g hg hclash
    have hsame : (measureOf s f).output = (measureOf s g).output :=
      output_eq_iff.mpr (.inr (.inl hclash))
    obtain ⟨a, -, ha, -⟩ := exists_asks_queriedFor hf
    obtain ⟨hfid, -⟩ := (asks_queriedFor_iff_of_find? ha).mp (hall f hf)
    obtain ⟨hfid', -⟩ := (asks_queriedFor_iff_of_find? (hsame ▸ ha)).mp (hall g hg)
    exact hclash.fid_ne (hfid.symm.trans hfid')
  · intro hapart f hf
    obtain ⟨g, hmem, hg, hsame, -⟩ := exists_asks_queriedFor hf
    rcases output_eq_iff.mp hsame with heq | hclash | hclash
    · exact (asks_queriedFor_iff_of_find? hg).mpr (measureOf_eq_iff.mp heq)
    · exact absurd hclash (hapart g hmem f hf)
    · exact absurd hclash (hapart f hf g hmem)

end Shelf

/-- The measures of an aggregate query are those for the measure shelf after its folds are
unfolded. -/
theorem exists_shelves_of_compile (h : v.compile s = .ok p) {groupBy : List String}
    {measures : List Measure} (hq : p.queries? = some [.aggregate groupBy measures]) :
    ∃ shelves, v.shelves s = .ok shelves ∧ measures = queriedFor s shelves.measures := by
  obtain ⟨g, hg, rfl⟩ := compile_eq_ok.1 h
  rw [g.queries?_plan, Stages.viewQuery, query] at hq
  refine ⟨g.shelves, hg.shelves, ?_⟩
  split at hq
  · simp only [ViewQuery.ofMeasures, Option.some.injEq, List.cons.injEq,
      ViewQuery.aggregate.injEq, and_true] at hq
    exact hq.2.symm
  · simp [ViewQuery.ofFields] at hq

/-- An aggregate query asks for all measures of its view just if no two of them clash. Of those that
write to one column it asks for the first one, and so for the others just if they are the same. -/
theorem asks_iff_of_compile (h : v.compile s = .ok p) {groupBy : List String}
    {measures : List Measure} (hq : p.queries? = some [.aggregate groupBy measures]) :
    ∃ shelves, v.shelves s = .ok shelves ∧
      ((∀ f ∈ shelves.measures, Asks s measures f) ↔
        ∀ f ∈ shelves.measures, ∀ g ∈ shelves.measures, ¬ Clash s f g) ∧
      ∀ f ∈ shelves.measures, ∃ g,
        shelves.measures.find? (fun g => outputKey g.fid (some (aggregation s g)) ==
          outputKey f.fid (some (aggregation s f))) = some g ∧
        Asks s measures g ∧
        (Asks s measures f ↔ g.fid = f.fid ∧ aggregation s g = aggregation s f) := by
  obtain ⟨shelves, hshelves, rfl⟩ := exists_shelves_of_compile h hq
  refine ⟨shelves, hshelves, forall_asks_queriedFor_iff, fun f hf => ?_⟩
  obtain ⟨g, -, hg, -, hasks⟩ := exists_asks_queriedFor hf
  exact ⟨g, hg, hasks, asks_queriedFor_iff_of_find? hg⟩

/-- Sales by their sum and mean, the sum twice, and the plain cost, which the default
aggregates. -/
def salesFigures : View where
  filters := []
  allFields := [.dimension "region", .new "sales" .measure, .new "cost" .measure]
  dimensions := [.dimension "region"]
  measures := [.measure "sales" "sum", .measure "sales" "mean", .measure "sales" "sum",
    .new "cost" .measure]
  aggregates := true
  sort := .unsorted
  folds := []
  limit := none

def salesFiguresPlan : Plan :=
  ⟨[.view [.aggregate ["region"] [.new "sales" "sum", .new "sales" "mean", .new "cost" "sum"]]],
    none⟩

theorem asks_salesFigures :
    salesFigures.compile .default = .ok salesFiguresPlan ∧
      ∃ shelves, salesFigures.shelves .default = .ok shelves ∧ ∀ f ∈ shelves.measures,
        Asks .default [.new "sales" "sum", .new "sales" "mean", .new "cost" "sum"] f := by
  have hc : salesFigures.compile .default = .ok salesFiguresPlan := by with_unfolding_all rfl
  obtain ⟨shelves, hshelves, hiff, -⟩ := asks_iff_of_compile hc rfl
  refine ⟨hc, shelves, hshelves, hiff.mpr ?_⟩
  have hmeasures : shelves.measures = salesFigures.measures := by
    cases hshelves
    rfl
  have hplain : ∀ f ∈ salesFigures.measures, aggregation .default f ≠ "" ∧
      '_' ∉ (aggregation .default f).toList := by decide
  rw [hmeasures]
  intro f hf g hg
  exact not_overlaps_of_notMem (hplain f hf).1 (hplain g hg).2

/-- The dataset has a field that is named like the column for the sum of sales. -/
def namesakeView : View where
  filters := []
  allFields := [.dimension "region", .new "sales" .measure, .new "sales_sum" .measure]
  dimensions := [.dimension "region"]
  measures := [.measure "sales" "sum", .measure "sales_sum" ""]
  aggregates := true
  sort := .unsorted
  folds := []
  limit := none

def namesakePlan : Plan := ⟨[.view [.aggregate ["region"] [.new "sales" "sum"]]], none⟩

theorem not_asks_namesake :
    namesakeView.compile .default = .ok namesakePlan ∧
      ∃ shelves, namesakeView.shelves .default = .ok shelves ∧
        .measure "sales_sum" "" ∈ shelves.measures ∧
          ¬ Asks .default [.new "sales" "sum"] (.measure "sales_sum" "") := by
  have hc : namesakeView.compile .default = .ok namesakePlan := by with_unfolding_all rfl
  refine ⟨hc, _, rfl, List.mem_cons_of_mem _ (List.mem_singleton_self _), ?_⟩
  rintro ⟨m, hm, hfield, -⟩
  obtain rfl := List.mem_singleton.mp hm
  exact absurd hfield (by decide)

end View

end ChartQuery
