import ChartQuery.Proofs.Compile.Transforms
import ChartQuery.Proofs.Expression.Normalization

namespace ChartQuery

section Traversal

variable {α β γ : Type} {R : α → β → Prop}

theorem forall₂_append_iff {as cs : List α} {bs ds : List β} (h : as.length = bs.length) :
    List.Forall₂ R (as ++ cs) (bs ++ ds) ↔ List.Forall₂ R as bs ∧ List.Forall₂ R cs ds := by
  induction as generalizing bs with
  | nil =>
    obtain rfl : bs = [] := List.eq_nil_of_length_eq_zero h.symm
    simp
  | cons a as ih =>
    cases bs with
    | nil => cases h
    | cons b bs =>
      have hrest : as.length = bs.length := Nat.succ.inj h
      rw [List.cons_append, List.cons_append, List.forall₂_cons, List.forall₂_cons, ih hrest,
        and_assoc]

/-- Lists that are joined of parts of the same lengths are related if their parts are. -/
theorem forall₂_flatMap_iff {f : γ → List α} {g : γ → List β} {xs : List γ}
    (h : ∀ x, (f x).length = (g x).length) :
    List.Forall₂ R (xs.flatMap f) (xs.flatMap g) ↔ ∀ x ∈ xs, List.Forall₂ R (f x) (g x) := by
  induction xs with
  | nil => simp
  | cons x xs ih =>
    rw [List.flatMap_cons, List.flatMap_cons, forall₂_append_iff (h x), ih, List.forall_mem_cons]

end Traversal

mutual

/-- The maps of the paint operators in an expression, at every depth. -/
def Expression.paintMaps : Expression → List PaintMap
  | ⟨op, params, _⟩ => Param.paintMapsIn op params

def Param.paintMaps (op : String) : Param → List PaintMap
  | .map m => if op = Expression.paintOp then [m] else []
  | .expression e => e.paintMaps
  | _ => []

def Param.paintMapsIn (op : String) : List Param → List PaintMap
  | [] => []
  | p :: params => p.paintMaps op ++ Param.paintMapsIn op params

end

namespace Param

theorem paintMapsIn_eq_flatMap (op : String) (params : List Param) :
    paintMapsIn op params = params.flatMap (paintMaps op) := by
  induction params with
  | nil => rfl
  | cons p params ih => rw [paintMapsIn, ih, List.flatMap_cons]

def nestedPaintMaps : Param → List PaintMap
  | .expression e => e.paintMaps
  | _ => []

end Param

namespace PaintMap

/-- The legend names some of the colours in use, without their colours, and gives what is not
painted no name. -/
structure IsCut (used : List UInt32) (m : PaintMap) : Prop where
  listed : ∀ i ∈ m.legend.keys, i ∈ used
  colorless : ∀ p ∈ m.legend.entries, p.2.color = none
  nameless : m.legend.name unpainted = ""

theorem isCut_compact (m : PaintMap) : m.compact.IsCut m.used where
  listed _ hi := mem_distinct.1 (m.compactsTo_compact.keys.mem_iff.1 hi)
  colorless := m.compactsTo_compact.colorless
  nameless := m.compactsTo_compact.name_unpainted

end PaintMap

namespace Expression

/-- The maps of the paint operators below the outermost operator. -/
def nestedPaintMaps (e : Expression) : List PaintMap := e.params.flatMap Param.nestedPaintMaps

/-- In place of each map of a paint operator stands one whose legend is cut down to its colours in
use. -/
def CutsTo (e out : Expression) : Prop :=
  List.Forall₂ (fun m shown => shown.IsCut m.used) e.paintMaps out.paintMaps

theorem paintMaps_eq (e : Expression) : e.paintMaps = e.params.flatMap (Param.paintMaps e.op) := by
  cases e
  rw [paintMaps, Param.paintMapsIn_eq_flatMap]

theorem cutsTo_self_iff {e : Expression} : e.CutsTo e ↔ ∀ m ∈ e.paintMaps, m.IsCut m.used :=
  List.forall₂_same

theorem nestedPaintMaps_of_op_ne {e : Expression} (h : e.op ≠ paintOp) :
    e.nestedPaintMaps = e.paintMaps := by
  have hparam : Param.paintMaps e.op = Param.nestedPaintMaps := by
    funext p
    cases p <;> simp [Param.paintMaps, Param.nestedPaintMaps, h]
  rw [nestedPaintMaps, paintMaps_eq, hparam]

theorem length_paintMaps_compactParam (p : Param) :
    (p.paintMaps paintOp).length = ((compactParam p).paintMaps paintOp).length := by
  cases p <;> rfl

theorem forall₂_compactParam_iff (p : Param) :
    List.Forall₂ (fun m shown => shown.IsCut m.used) (p.paintMaps paintOp)
      ((compactParam p).paintMaps paintOp) ↔ ∀ m ∈ p.nestedPaintMaps, m.IsCut m.used := by
  cases p with
  | map m => simpa [compactParam, Param.paintMaps, Param.nestedPaintMaps] using m.isCut_compact
  | expression e => exact List.forall₂_same
  | _ => simp [compactParam, Param.paintMaps, Param.nestedPaintMaps]

theorem nestedPaintMaps_normalize (e : Expression) :
    e.normalize.nestedPaintMaps = e.nestedPaintMaps := by
  by_cases h : e.op = paintOp
  · have hparam : Param.nestedPaintMaps ∘ compactParam = Param.nestedPaintMaps := by
      funext p
      cases p <;> rfl
    rw [normalize_of_op_eq h, nestedPaintMaps, List.flatMap_map, nestedPaintMaps]
    exact congrArg e.params.flatMap hparam
  · rw [normalize_of_op_ne h]

/-- The maps of the outermost operator are cut down in any case, the nested ones only if they were
so before. -/
theorem cutsTo_normalize_iff {e : Expression} :
    e.CutsTo e.normalize ↔ ∀ m ∈ e.nestedPaintMaps, m.IsCut m.used := by
  by_cases h : e.op = paintOp
  · rw [CutsTo, paintMaps_eq, paintMaps_eq, normalize_of_op_eq h, h, List.flatMap_map,
      forall₂_flatMap_iff length_paintMaps_compactParam, nestedPaintMaps, List.forall_mem_flatMap]
    exact forall₂_congr fun p _ => forall₂_compactParam_iff p
  · rw [normalize_of_op_ne h, cutsTo_self_iff, nestedPaintMaps_of_op_ne h]

end Expression

/-- Each transform computes a field of the dataset, and the maps of its paint operators are cut
down to the colours that this field uses in them. -/
def Plan.CutsMaps (p : Plan) (v : View) : Prop :=
  ∀ t ∈ p.transforms, ∃ f ∈ v.allFields, ∃ e, f.formula? = some e ∧ View.transformOf f e = t ∧
    e.CutsTo t.expression

namespace View

variable {v : View} {s : Settings} {p : Plan}

/-- A compiled plan has only maps that are cut down, unless a computed field in use nests a paint
operator in another operator and has a map there that is not cut down itself. -/
theorem cutsMaps_iff_of_compile (h : v.compile s = .ok p) :
    ∃ shelves, v.shelves s = .ok shelves ∧
      (p.CutsMaps v ↔ ∀ f e, v.Uses (v.keys shelves) f → f.formula? = some e →
        ∀ m ∈ e.nestedPaintMaps, m.IsCut m.used) := by
  obtain ⟨g, hg, rfl⟩ := compile_eq_ok.1 h
  refine ⟨g.shelves, hg.shelves, ?_⟩
  rw [Plan.CutsMaps, g.isLaidOut_plan.transforms_eq]
  constructor
  · intro hcut f e huse he
    obtain ⟨f', _, e', _, hsame, hmaps⟩ := hcut _ (hg.mem_transforms_iff.2 ⟨f, e, huse, he, rfl⟩)
    -- Two fields may give one transform; what is nested in their expressions is the same then.
    have hnormal : e'.normalize = e.normalize := congrArg Transform.expression hsame
    change e'.CutsTo e.normalize at hmaps
    rw [← hnormal, Expression.cutsTo_normalize_iff] at hmaps
    rwa [← e'.nestedPaintMaps_normalize, hnormal, e.nestedPaintMaps_normalize] at hmaps
  · intro hnested t ht
    obtain ⟨f, e, huse, he, rfl⟩ := hg.mem_transforms_iff.1 ht
    exact ⟨f, huse.mem_allFields, e, he, rfl,
      Expression.cutsTo_normalize_iff.2 (hnested f e huse he)⟩

section Climate

/-- A map of the climate with a legend. -/
def climateMap (entries : List (UInt32 × LegendEntry)) (used : List UInt32) : PaintMap where
  x := "lon"
  y := "lat"
  domainX := (.zero false, .zero false)
  domainY := (.zero false, .zero false)
  grid := ""
  legend := .ofList entries
  used := used
  width := 0

def painted (entries : List (UInt32 × LegendEntry)) (used : List UInt32) : Expression :=
  ⟨"paint", [.map (climateMap entries used)], "climate"⟩

def upperCase (e : Expression) : Expression := ⟨"upper", [.expression e], "climate"⟩

/-- A view with the climate as its only dimension. -/
def climateView (e : Expression) : View where
  filters := []
  allFields := [.ofExpression "climate" .dimension e]
  dimensions := [.dimension "climate"]
  measures := []
  aggregates := false
  sort := .unsorted
  folds := []
  limit := none

def climatePlan (e : Expression) : Plan :=
  ⟨[.transform [⟨"climate", e⟩], .view [.raw ["climate"]]], none⟩

def coloredEntries : List (UInt32 × LegendEntry) :=
  [(1, ⟨"hot", some "#f00"⟩), (2, ⟨"cold", some "#00f"⟩), (255, ⟨"sea", none⟩)]

/-- Paint on paint that has only what it uses in its legend. -/
def repainted (entries : List (UInt32 × LegendEntry)) (used : List UInt32) : Expression :=
  ⟨"paint", [.map (climateMap entries used), .expression (painted [(1, ⟨"hot", none⟩)] [1])],
    "climate"⟩

theorem cutsMaps_repainted :
    (climateView (repainted coloredEntries [1, 7, 255, 1])).compile .default =
        .ok (climatePlan (repainted [(1, ⟨"hot", none⟩), (7, ⟨"", none⟩), (255, ⟨"", none⟩)] [])) ∧
      (climatePlan (repainted [(1, ⟨"hot", none⟩), (7, ⟨"", none⟩), (255, ⟨"", none⟩)] [])).CutsMaps
        (climateView (repainted coloredEntries [1, 7, 255, 1])) := by
  have hc : (climateView (repainted coloredEntries [1, 7, 255, 1])).compile .default =
      .ok (climatePlan
        (repainted [(1, ⟨"hot", none⟩), (7, ⟨"", none⟩), (255, ⟨"", none⟩)] [])) := by
    with_unfolding_all rfl
  obtain ⟨shelves, -, hiff⟩ := cutsMaps_iff_of_compile hc
  refine ⟨hc, hiff.2 ?_⟩
  intro f e huse he m hm
  obtain rfl := List.mem_singleton.1 huse.mem_allFields
  cases he
  obtain rfl : m = climateMap [(1, ⟨"hot", none⟩)] [1] := List.mem_singleton.1 hm
  refine ⟨fun i hi => hi, ?_, rfl⟩
  intro p hp
  obtain rfl : p = (1, ⟨"hot", none⟩) := List.mem_singleton.1 hp
  rfl

/-- The legend goes out as it is, with the colours that are not in use and with all their codes. -/
theorem not_cutsMaps_upperCase :
    (climateView (upperCase (painted coloredEntries [1]))).compile .default =
        .ok (climatePlan (upperCase (painted coloredEntries [1]))) ∧
      ¬ (climatePlan (upperCase (painted coloredEntries [1]))).CutsMaps
        (climateView (upperCase (painted coloredEntries [1]))) := by
  refine ⟨by with_unfolding_all rfl, fun hcut => ?_⟩
  obtain ⟨f, hf, e, he, -, hmaps⟩ := hcut _ List.mem_cons_self
  obtain rfl := List.mem_singleton.1 hf
  cases he
  have hcut := (List.forall₂_cons.1 hmaps).1
  have hcolor := hcut.colorless (1, ⟨"hot", some "#f00"⟩) List.mem_cons_self
  cases hcolor

end Climate

end View

end ChartQuery
