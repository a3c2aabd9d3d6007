import ChartQuery.Proofs.Compile.Shape
import Mathlib.Tactic.Common

namespace ChartQuery

/-- Of the properties that hold of anything, the first holds of `a`. -/
def FirstOf {α : Type} : List (α → Prop) → α → Prop
  | [], _ => False
  | P :: Ps, a => P a ∨ (∀ b, ¬ P b) ∧ FirstOf Ps a

section FirstOf

variable {α β : Type}

@[simp] theorem firstOf_nil {a : α} : ¬ FirstOf [] a := id

theorem firstOf_cons {P : α → Prop} {Ps : List (α → Prop)} {a : α} :
    FirstOf (P :: Ps) a ↔ P a ∨ (∀ b, ¬ P b) ∧ FirstOf Ps a :=
  Iff.rfl

theorem exists_of_firstOf {Ps : List (α → Prop)} {a : α} (h : FirstOf Ps a) : ∃ P ∈ Ps, P a := by
  induction Ps with
  | nil => exact absurd h firstOf_nil
  | cons P Ps ih =>
    rcases h with h | ⟨_, h⟩
    · exact ⟨P, List.mem_cons_self, h⟩
    · obtain ⟨Q, hQ, hQa⟩ := ih h
      exact ⟨Q, List.mem_cons_of_mem P hQ, hQa⟩

theorem forall_not_firstOf_iff {Ps : List (α → Prop)} :
    (∀ a, ¬ FirstOf Ps a) ↔ ∀ P ∈ Ps, ∀ a, ¬ P a := by
  induction Ps with
  | nil => simp
  | cons P Ps ih =>
    rw [List.forall_mem_cons, ← ih]
    constructor
    · intro h
      have hP : ∀ a, ¬ P a := fun a ha => h a (Or.inl ha)
      exact ⟨hP, fun a ha => h a (Or.inr ⟨hP, ha⟩)⟩
    · rintro ⟨hP, hPs⟩ a (ha | ⟨_, ha⟩)
      · exact hP a ha
      · exact hPs a ha

/-- Elements that fail a test have no fault to report, so they can be passed over. -/
theorem firstOf_map_filter {p : β → Bool} {fault : β → α → Prop} {xs : List β} {a : α} :
    FirstOf ((xs.filter p).map fault) a ↔ FirstOf (xs.map fun x b => p x ∧ fault x b) a := by
  induction xs with
  | nil => rfl
  | cons x xs ih =>
    cases hp : p x with
    | true => simp [hp, firstOf_cons, ih]
    | false => simp [hp, firstOf_cons, ih]

/-- The first element that passes a test is the one that is found. -/
theorem firstOf_map_iff_find? {p : β → Bool} {report : β → α} {xs : List β} {a : α} :
    FirstOf (xs.map fun x b => p x ∧ b = report x) a ↔ ∃ x, xs.find? p = some x ∧ a = report x := by
  induction xs with
  | nil => simp
  | cons x xs ih =>
    cases hp : p x with
    | true => simp [hp, firstOf_cons]
    | false => simp [hp, firstOf_cons, ih]

end FirstOf

/-- The result reports the first fault, and there is one if and only if it fails. -/
def Reports {ε α : Type} (faults : List (ε → Prop)) : Except ε α → Prop
  | .ok _ => ∀ P ∈ faults, ∀ e, ¬ P e
  | .error e => FirstOf faults e

namespace Reports

variable {ε α β : Type} {x : Except ε α} {P Q : ε → Prop} {Ps : List (ε → Prop)}

theorem ok (a : α) : Reports (ε := ε) [] (.ok a) := by
  simp [Reports]

theorem congr (h : ∀ e, P e ↔ Q e) (hx : Reports [P] x) : Reports [Q] x := by
  have hPQ : P = Q := funext fun e => propext (h e)
  rwa [← hPQ]

/-- A list of faults is one fault, that of the first of them. -/
theorem join (h : Reports Ps x) : Reports [FirstOf Ps] x := by
  cases x with
  | ok a =>
    have hnone : ∀ e, ¬ FirstOf Ps e := forall_not_firstOf_iff.2 h
    simpa [Reports] using hnone
  | error e => exact Or.inl h

theorem bind {f : α → Except ε β} (hx : Reports [P] x)
    (hf : ∀ a, x = .ok a → Reports Ps (f a)) : Reports (P :: Ps) (x >>= f) := by
  cases x with
  | error e =>
    have he : P e := by simpa [Reports, firstOf_cons] using hx
    exact Or.inl he
  | ok a =>
    have hP : ∀ e, ¬ P e := by simpa [Reports] using hx
    have hbind : (Except.ok a >>= f) = f a := rfl
    rw [hbind]
    cases hfa : f a with
    | ok b =>
      have hPs : ∀ Q ∈ Ps, ∀ e, ¬ Q e := by simpa [hfa, Reports] using hf a rfl
      exact List.forall_mem_cons.2 ⟨hP, hPs⟩
    | error e =>
      have he : FirstOf Ps e := by simpa [hfa, Reports] using hf a rfl
      exact Or.inr ⟨hP, he⟩

theorem map (g : α → β) (hx : Reports [P] x) : Reports [P] (x >>= fun a => pure (g a)) :=
  hx.bind fun _ _ => .ok _

variable {fault : α → ε → Prop}

theorem mapM {f : α → Except ε β} (hf : ∀ a, Reports [fault a] (f a)) (xs : List α) :
    Reports (xs.map fault) (xs.mapM f) := by
  induction xs with
  | nil => exact .ok []
  | cons a xs ih =>
    rw [List.mapM_cons]
    refine (hf a).bind fun b _ => ?_
    cases hxs : xs.mapM f with
    | ok bs =>
      rw [hxs] at ih
      exact ih
    | error e =>
      rw [hxs] at ih
      exact ih

theorem forM {f : α → Except ε Unit} (hf : ∀ a, Reports [fault a] (f a)) (xs : List α) :
    Reports (xs.map fault) (xs.forM f) := by
  induction xs with
  | nil => exact .ok ()
  | cons a xs ih => exact (hf a).bind fun _ _ => ih

end Reports

end ChartQuery
