import ChartQuery.Proofs.Pivot.Positions

namespace ChartQuery

theorem Collapsed.contains_insert (before after : List (String × Path)) (id : String)
    (path q : Path) :
    contains ⟨before ++ (id, path) :: after⟩ q = (add ⟨before ++ after⟩ id path).contains q := by
  simp only [contains, add, List.any_append, List.any_cons, List.any_nil, Bool.or_false]
  rw [Bool.or_assoc, Bool.or_comm (after.any _)]

namespace Header

/-- A tree depends only on which paths are collapsed. -/
theorem beneath_congr {c d : Collapsed} (h : ∀ path, c.contains path = d.contains path)
    (summary : Bool) (dims : List String) (path : Path) (rows : List Row) :
    beneath c summary dims path rows = beneath d summary dims path rows := by
  induction dims generalizing path rows with
  | nil => rfl
  | cons key dims ih =>
    rw [beneath_cons, beneath_cons]
    refine List.map_congr_left fun v _ => ?_
    simp only [ofValue, h, ih]

theorem ofRows_congr {c d : Collapsed} (h : ∀ path, c.contains path = d.contains path)
    (summary : Bool) (dims : List String) (rows : List Row) :
    ofRows c summary dims rows = ofRows d summary dims rows := by
  rw [ofRows, ofRows, beneath_congr h]

theorem with_children_eq {h : Header} {hs : List Header} (he : hs = h.children) :
    { h with children := hs } = h := by
  cases h
  cases he
  rfl

/-- Changes the header at a position. The headers above it keep what they are and all other
children. -/
def modifyAt (f : Header → Header) : List Nat → Header → Header
  | [], h => f h
  | i :: position, h => { h with children := h.children.modify i (modifyAt f position) }

/-- Summaries have the paths of their parents, but do not count. -/
def hasPath (path : Path) (h : Header) : Bool := !h.isSummary && Path.eqv path h.path

/-- The position of a header beneath the root to which the path leads. -/
def LeadsTo (path : Path) (h : Header) (position : List Nat) : Prop :=
  position ≠ [] ∧ ∃ n, h.at? position = some n ∧ n.hasPath path = true

theorem modifyAt_of_fixed {f : Header → Header} {h n : Header} {position : List Nat}
    (hn : h.at? position = some n) (hf : f n = n) : h.modifyAt f position = h := by
  induction position generalizing h with
  | nil =>
    obtain rfl := Option.some.inj hn
    exact hf
  | cons i position ih =>
    obtain ⟨child, hi, hn⟩ := at?_cons_eq_some_iff.mp hn
    refine with_children_eq (List.ext_getElem? fun j => ?_)
    rw [List.getElem?_modify]
    by_cases hij : i = j
    · subst hij
      simp [hi, ih hn]
    · simp [hij]

theorem closed_of_isCollapsed {h : Header} (hcollapsed : h.isCollapsed = true)
    (hc : h.children = []) : h.closed = h := by
  obtain ⟨key, value, here, depth, children, collapsed, summary⟩ := h
  simp_all [closed]

theorem collapse_eq (path : Path) (h : Header) :
    h.collapse path = if h.hasPath path then h.closed else h.collapseBeneath path := by
  obtain ⟨key, value, here, depth, children, collapsed, summary⟩ := h
  rw [collapse]
  rfl

mutual

/-- Where no header has the path, nothing is collapsed. -/
theorem collapse_of_forall {path : Path} : (h : Header) →
    (∀ (position : List Nat) (n : Header), h.at? position = some n → n.hasPath path = false) →
    h.collapse path = h
  | ⟨key, value, here, depth, children, collapsed, summary⟩, hnone => by
    have hroot := hnone [] _ rfl
    rw [collapse_eq, hroot, collapseBeneath, collapseIn_of_forall children]
    · rfl
    · intro i child hi position n hn
      exact hnone (i :: position) n (at?_cons_eq_some_iff.mpr ⟨child, hi, hn⟩)

theorem collapseIn_of_forall {path : Path} : (hs : List Header) →
    (∀ (i : Nat) (h : Header), hs[i]? = some h → ∀ (position : List Nat) (n : Header),
      h.at? position = some n → n.hasPath path = false) → collapseIn path hs = hs
  | [], _ => rfl
  | h :: hs, hnone => by
    rw [collapseIn, collapse_of_forall h (hnone 0 h rfl),
      collapseIn_of_forall hs fun i => hnone (i + 1)]

end

theorem collapseBeneath_of_forall {path : Path} {h : Header}
    (hnone : ∀ position, ¬ LeadsTo path h position) : h.collapseBeneath path = h := by
  refine with_children_eq (collapseIn_of_forall h.children ?_)
  intro i child hi position n hn
  rw [← Bool.not_eq_true]
  intro hpath
  have hat : h.at? (i :: position) = some n := at?_cons_eq_some_iff.mpr ⟨child, hi, hn⟩
  exact hnone (i :: position) ⟨List.cons_ne_nil _ _, n, hat, hpath⟩

theorem map_eq_modify {α : Type} {f g : α → α} {xs : List α} {i : Nat}
    (hi : ∀ x, xs[i]? = some x → f x = g x) (hother : ∀ j x, j ≠ i → xs[j]? = some x → f x = x) :
    xs.map f = xs.modify i g := by
  refine List.ext_getElem? fun j => ?_
  rw [List.getElem?_map, List.getElem?_modify]
  cases hj : xs[j]? with
  | none => rfl
  | some x =>
    by_cases hij : i = j
    · subst hij
      simp [hi x hj]
    · simp [hij, hother j x (Ne.symm hij) hj]

/-- Where one header has the path, it is the only one that is closed. -/
theorem collapseBeneath_eq_modifyAt {path : Path} {h : Header} {position : List Nat}
    (hp : LeadsTo path h position) (hunique : ∀ other, LeadsTo path h other → other = position) :
    h.collapseBeneath path = h.modifyAt closed position := by
  induction position generalizing h with
  | nil => exact absurd rfl hp.1
  | cons i position ih =>
    obtain ⟨-, n, hn, hpath⟩ := hp
    obtain ⟨child, hi, hn⟩ := at?_cons_eq_some_iff.mp hn
    have hbeneath : ∀ {j d q m}, h.children[j]? = some d → d.at? q = some m →
        m.hasPath path = true → j :: q = i :: position := fun hj hm hpath =>
      hunique _ ⟨List.cons_ne_nil _ _, _, at?_cons_eq_some_iff.mpr ⟨_, hj, hm⟩, hpath⟩
    have hchild : child.collapse path = child.modifyAt closed position := by
      cases position with
      | nil =>
        obtain rfl := Option.some.inj hn
        rw [collapse_eq, if_pos hpath, modifyAt]
      | cons k position =>
        have hopen : ¬ child.hasPath path = true := by
          intro hc
          have hend : i :: [] = i :: k :: position := hbeneath hi rfl hc
          simp at hend
        rw [collapse_eq, if_neg hopen]
        refine ih ⟨List.cons_ne_nil _ _, n, hn, hpath⟩ ?_
        rintro other ⟨-, m, hm, hpath⟩
        exact (List.cons.inj (hbeneath hi hm hpath)).2
    have hchildren : collapseIn path h.children =
        h.children.modify i (modifyAt closed position) := by
      rw [collapseIn_eq_map]
      refine map_eq_modify (fun d hd => ?_) fun j d hj hd => ?_
      · obtain rfl := Option.some.inj (hi.symm.trans hd)
        exact hchild
      · refine d.collapse_of_forall fun q m hm => ?_
        rw [← Bool.not_eq_true]
        intro hpath
        exact hj (List.cons.inj (hbeneath hd hm hpath)).1
    rw [collapseBeneath, hchildren, modifyAt]

namespace Divides

variable {c : Collapsed} {summary : Bool} {dims : List String} {rows : List Row} {h n : Header}
  {path : Path} {position other : List Nat}

theorem leadsTo_unique (hd : Divides c summary dims rows h) (hp : LeadsTo path h position)
    (hq : LeadsTo path h other) : position = other := by
  obtain ⟨-, n, hn, hnpath⟩ := hp
  obtain ⟨-, m, hm, hmpath⟩ := hq
  simp only [hasPath, Bool.and_eq_true, Bool.not_eq_true'] at hnpath hmpath
  refine hd.position_eq hn hnpath.1 hm hmpath.1 ?_
  exact BEq.trans (BEq.symm (Path.headers_beq_of_eqv hnpath.2)) (Path.headers_beq_of_eqv hmpath.2)

/-- A header that is collapsed is no summary, and nothing is beneath it. -/
theorem of_isCollapsed (hd : Divides c summary dims rows h) (hopen : h.isCollapsed = false)
    (hn : h.at? position = some n) (hcollapsed : n.isCollapsed = true) :
    n.isSummary = false ∧ n.children = [] := by
  cases position with
  | nil =>
    obtain rfl := Option.some.inj hn
    rw [hopen] at hcollapsed
    contradiction
  | cons i position =>
    refine hd.of_at? (P := fun n => n.isCollapsed = true → n.isSummary = false ∧ n.children = [])
      ?_ ?_ hn hcollapsed
    · intro path hcollapsed
      contradiction
    · intro key dims path rows v hcollapsed
      exact ⟨rfl, ofValue_children_of_collapsed _ _ _ _ _ _ _ hcollapsed⟩

/-- A path that goes on behind that of a collapsed header leads nowhere, or to just this header. -/
theorem leadsTo_of_isCollapsed (hd : Divides c summary dims rows h) (hs : h.isSummary = false)
    (hopen : h.isCollapsed = false) (hn : h.at? position = some n)
    (hcollapsed : n.isCollapsed = true) {start rest : Path} (he : Path.eqv start n.path = true)
    (hp : LeadsTo (start ++ rest) h other) : other = position := by
  obtain ⟨hns, hleaf⟩ := hd.of_isCollapsed hopen hn hcollapsed
  obtain ⟨-, m, hm, hpath⟩ := hp
  simp only [hasPath, Bool.and_eq_true, Bool.not_eq_true'] at hpath
  obtain ⟨hms, hme⟩ := hpath
  have hstart : start.length = h.path.length + position.length :=
    (Path.length_eq_of_eqv he).trans (hd.length_path hn hns)
  have hlength : (start ++ rest).length = h.path.length + other.length :=
    (Path.length_eq_of_eqv hme).trans (hd.length_path hm hms)
  -- The header as far down as the collapsed one, on the way to the one that the path leads to.
  rw [← other.take_append_drop position.length] at hm
  obtain ⟨a, dims', rows', ha, has, hda, hm⟩ := hd.exists_on_way hs hm hms
  have hstarta : Path.eqv start a.path = true := by
    obtain ⟨behind, hbehind, -⟩ := hda.exists_path_eq hm hms
    have halength := hd.length_path ha has
    rw [List.length_append] at hlength
    rw [hbehind, Path.eqv_append (by rw [halength, List.length_take]; omega),
      Bool.and_eq_true] at hme
    exact hme.1
  have htake : position = other.take position.length := by
    refine hd.position_eq hn hns ha has ?_
    exact BEq.trans (BEq.symm (Path.headers_beq_of_eqv he)) (Path.headers_beq_of_eqv hstarta)
  rw [← htake, hn] at ha
  obtain rfl := Option.some.inj ha
  have hdrop : other.drop position.length = [] := by
    cases hdrop : other.drop position.length with
    | nil => rfl
    | cons j further =>
      rw [hdrop, at?_eq_none_of_isLeaf hleaf] at hm
      contradiction
  rw [← other.take_append_drop position.length, ← htake, hdrop, List.append_nil]

end Divides

/-- The second tree is the first one with the header closed that a path leads to. There is at most
one, and there is nothing to close if there is none or if the path leads beneath a collapsed
header. -/
structure ClosesOnly (path : Path) (h h' : Header) : Prop where
  unique : ∀ {p q : List Nat}, LeadsTo path h p → LeadsTo path h q → p = q
  closed : ∀ {p : List Nat}, LeadsTo path h p → h' = h.modifyAt Header.closed p
  missing : (∀ p, ¬ LeadsTo path h p) → h' = h
  hidden : ∀ {start rest : Path} {p : List Nat} {n : Header}, path = start ++ rest →
    h.at? p = some n → n.isCollapsed = true → Path.eqv start n.path = true → h' = h

theorem Divides.closesOnly {c : Collapsed} {summary : Bool} {dims : List String}
    {rows : List Row} {h : Header} (hd : Divides c summary dims rows h)
    (hs : h.isSummary = false) (hopen : h.isCollapsed = false) (path : Path) :
    ClosesOnly path h (h.collapseBeneath path) where
  unique := hd.leadsTo_unique
  closed hp := collapseBeneath_eq_modifyAt hp fun _ hq => hd.leadsTo_unique hq hp
  missing := collapseBeneath_of_forall
  hidden := by
    rintro start rest p n rfl hn hcollapsed he
    by_cases hnone : ∃ q, LeadsTo (start ++ rest) h q
    · obtain ⟨q, hq⟩ := hnone
      obtain rfl := hd.leadsTo_of_isCollapsed hs hopen hn hcollapsed he hq
      rw [collapseBeneath_eq_modifyAt hq fun _ hr => hd.leadsTo_unique hr hq]
      obtain ⟨-, hleaf⟩ := hd.of_isCollapsed hopen hn hcollapsed
      exact modifyAt_of_fixed hn (closed_of_isCollapsed hcollapsed hleaf)
    · exact collapseBeneath_of_forall (not_exists.mp hnone)

/-- One more entry of a snapshot closes the header that its path leads to, and changes nothing
else. -/
theorem closesOnly_ofRows_insert (before after : List (String × Path)) (id : String) (path : Path)
    (summary : Bool) (dims : List String) (rows : List Row) :
    ClosesOnly path (ofRows ⟨before ++ after⟩ summary dims rows)
      (ofRows ⟨before ++ (id, path) :: after⟩ summary dims rows) := by
  rw [ofRows_congr (Collapsed.contains_insert before after id path), ofRows_add]
  exact (divides_ofRows ⟨before ++ after⟩ summary dims rows).closesOnly rfl rfl path

def hall : Path := [⟨"place", .text "hall"⟩]

/-- The way to the zero among the readings without a place, which are collapsed. -/
def placelessZero : Path := [⟨"place", .null⟩, ⟨"reading", .number (.zero false)⟩]

theorem closesOnly_readings :
    LeadsTo hall (ofRows placeless true ["place", "reading"] readings) [1] ∧
      ofRows ⟨("hall", hall) :: placeless.entries⟩ true ["place", "reading"] readings =
        (ofRows placeless true ["place", "reading"] readings).modifyAt closed [1] ∧
      ofRows ⟨("zero", placelessZero) :: placeless.entries⟩ true ["place", "reading"] readings =
        ofRows placeless true ["place", "reading"] readings := by
  have hhall := closesOnly_ofRows_insert [] placeless.entries "hall" hall true ["place", "reading"]
    readings
  have hzero := closesOnly_ofRows_insert [] placeless.entries "zero" placelessZero true
    ["place", "reading"] readings
  have hleads : LeadsTo hall (ofRows placeless true ["place", "reading"] readings) [1] :=
    ⟨List.cons_ne_nil _ _, _, rfl, rfl⟩
  have hbehind : placelessZero = [⟨"place", .null⟩] ++ [⟨"reading", .number (.zero false)⟩] := rfl
  exact ⟨hleads, hhall.closed hleads, hzero.hidden (p := [0]) hbehind rfl rfl rfl⟩

end Header

end ChartQuery
