import ChartQuery.Text.Blank
import ChartQuery.Text.Numeral
import Mathlib.Algebra.Group.Nat.Defs
import Mathlib.Data.List.TakeWhile

namespace ChartQuery.Text

theorem natOfDigits_eq_ofDigitChars (ds : List Char) :
    natOfDigits ds = Nat.ofDigitChars 10 ds 0 :=
  Nat.ofDigitChars_eq_foldl.symm

theorem natOfDigits_toDigits (n : Nat) : natOfDigits (Nat.toDigits 10 n) = n := by
  rw [natOfDigits_eq_ofDigitChars, Nat.ofDigitChars_ten_toDigits]

theorem isDigit_of_mem_toDigits {n : Nat} : ∀ c ∈ Nat.toDigits 10 n, c.isDigit = true :=
  fun _ hc => Nat.isDigit_of_mem_toDigits (by decide) (Nat.le_refl 10) hc

/-- The decimal digits of a number, led by zeros up to a width. -/
def padded (width n : Nat) : List Char := (Nat.toDigits 10 n).leftpad width '0'

theorem length_padded {width n : Nat} (hwidth : 0 < width) (h : n < 10 ^ width) :
    (padded width n).length = width := by
  rw [padded, List.length_leftpad]
  exact Nat.max_eq_left ((Nat.length_toDigits_le_iff (by decide) hwidth).2 h)

theorem padded_ne_nil (width n : Nat) : padded width n ≠ [] := by
  rw [padded, List.leftpad]
  exact List.append_ne_nil_of_right_ne_nil _ Nat.toDigits_ne_nil

theorem isDigit_of_mem_padded {width n : Nat} : ∀ c ∈ padded width n, c.isDigit = true := by
  intro c hc
  rw [padded, List.leftpad, List.mem_append] at hc
  rcases hc with hc | hc
  · rw [List.eq_of_mem_replicate hc]
    rfl
  · exact isDigit_of_mem_toDigits c hc

theorem natOfDigits_padded (width n : Nat) : natOfDigits (padded width n) = n := by
  rw [padded, List.leftpad, natOfDigits_eq_ofDigitChars, Nat.ofDigitChars_append,
    Nat.ofDigitChars_replicate_zero, Nat.mul_zero, Nat.ofDigitChars_ten_toDigits]

theorem isBlank_eq_false_of_isDigit {c : Char} (h : c.isDigit = true) : isBlank c = false := by
  rw [Char.isDigit_iff_toNat] at h
  have hzero : '0'.toNat = 48 := rfl
  have hnine : '9'.toNat = 57 := rfl
  rw [hzero, hnine] at h
  simp only [isBlank, Bool.or_eq_false_iff, Bool.and_eq_false_iff, decide_eq_false_iff_not,
    beq_eq_false_iff_ne]
  omega

/-- The text has a first character, and this is no white space. -/
def StartsSolid (cs : List Char) : Prop := ∃ c ∈ cs.head?, isBlank c = false

/-- The text has a last character, and this is no white space. -/
def EndsSolid (cs : List Char) : Prop := StartsSolid cs.reverse

theorem StartsSolid.cons {c : Char} (h : isBlank c = false) (cs : List Char) :
    StartsSolid (c :: cs) := ⟨c, rfl, h⟩

theorem StartsSolid.append {cs : List Char} (h : StartsSolid cs) (more : List Char) :
    StartsSolid (cs ++ more) := by
  obtain ⟨c, hc, hblank⟩ := h
  cases cs with
  | nil => cases hc
  | cons d cs => exact ⟨c, hc, hblank⟩

theorem EndsSolid.append {cs : List Char} (h : EndsSolid cs) (before : List Char) :
    EndsSolid (before ++ cs) := by
  rw [EndsSolid, List.reverse_append]
  exact StartsSolid.append h _

theorem EndsSolid.cons {cs : List Char} (h : EndsSolid cs) (c : Char) : EndsSolid (c :: cs) :=
  h.append [c]

theorem startsSolid_of_isDigit {ds : List Char} (hne : ds ≠ []) (h : ∀ c ∈ ds, c.isDigit = true) :
    StartsSolid ds := by
  obtain ⟨c, ds, rfl⟩ := List.exists_cons_of_ne_nil hne
  exact .cons (isBlank_eq_false_of_isDigit (h c List.mem_cons_self)) ds

theorem endsSolid_of_isDigit {ds : List Char} (hne : ds ≠ []) (h : ∀ c ∈ ds, c.isDigit = true) :
    EndsSolid ds :=
  startsSolid_of_isDigit (List.reverse_ne_nil_iff.mpr hne) fun c hc => h c (List.mem_reverse.mp hc)

theorem startsSolid_padded (width n : Nat) : StartsSolid (padded width n) :=
  startsSolid_of_isDigit (padded_ne_nil width n) isDigit_of_mem_padded

theorem endsSolid_padded (width n : Nat) : EndsSolid (padded width n) :=
  endsSolid_of_isDigit (padded_ne_nil width n) isDigit_of_mem_padded

theorem StartsSolid.trimStart_eq {cs : List Char} (h : StartsSolid cs) : trimStart cs = cs := by
  obtain ⟨c, hc, hblank⟩ := h
  cases cs with
  | nil => cases hc
  | cons d cs =>
    obtain rfl := Option.some.inj hc
    rw [trimStart_cons, hblank]
    rfl

theorem trimStart_append_of_isBlank {blanks : List Char} (h : ∀ c ∈ blanks, isBlank c = true)
    (cs : List Char) : trimStart (blanks ++ cs) = trimStart cs :=
  List.dropWhile_append_of_pos h

theorem trim_append_append {before cs after : List Char} (hbefore : ∀ c ∈ before, isBlank c = true)
    (hafter : ∀ c ∈ after, isBlank c = true) (hstart : StartsSolid cs) (hend : EndsSolid cs) :
    trim (before ++ cs ++ after) = cs := by
  rw [trim, List.append_assoc, trimStart_append_of_isBlank hbefore,
    (hstart.append after).trimStart_eq, List.reverse_append,
    trimStart_append_of_isBlank (by simpa using hafter), hend.trimStart_eq, List.reverse_reverse]

theorem toList_toString (n : Int) : (toString n).toList =
    if 0 ≤ n then Nat.toDigits 10 n.toNat else '-' :: Nat.toDigits 10 (-n).toNat := by
  rw [Int.toString_eq_repr, Int.repr_eq_if]
  split
  · rw [Nat.repr_eq_ofList_toDigits, String.toList_ofList]
  · simp only [String.toList_append, Nat.repr_eq_ofList_toDigits, String.toList_ofList]
    rfl

theorem sign_of_isDigit {cs : List Char} (h : ∀ c ∈ cs, c.isDigit = true) :
    sign cs = (false, cs) := by
  rw [sign]
  · rintro cs rfl
    cases h '-' List.mem_cons_self
  · rintro cs rfl
    cases h '+' List.mem_cons_self

theorem digitRun_of_isDigit {ds : List Char} (h : ∀ c ∈ ds, c.isDigit = true) :
    digitRun ds = (ds, []) := by
  rw [digitRun, List.takeWhile_eq_self_iff.mpr h, List.dropWhile_eq_nil_iff.mpr h]

theorem readInt?_of_sign {cs ds : List Char} {negative : Bool} (hsign : sign cs = (negative, ds))
    (hne : ds ≠ []) (h : ∀ c ∈ ds, c.isDigit = true) :
    readInt? cs = some (signed negative (natOfDigits ds)) := by
  obtain ⟨d, ds, rfl⟩ := List.exists_cons_of_ne_nil hne
  simp only [readInt?, hsign, digitRun_of_isDigit h]

/-- An integer is read back from its decimal text. -/
theorem readInt?_toString (n : Int) : readInt? (toString n).toList = some n := by
  rw [toList_toString]
  split
  case isTrue hpos =>
    rw [readInt?_of_sign (sign_of_isDigit isDigit_of_mem_toDigits) Nat.toDigits_ne_nil
      isDigit_of_mem_toDigits, natOfDigits_toDigits]
    exact congrArg some (Int.toNat_of_nonneg hpos)
  case isFalse hneg =>
    have hsign (ds : List Char) : sign ('-' :: ds) = (true, ds) := rfl
    rw [readInt?_of_sign (hsign _) Nat.toDigits_ne_nil isDigit_of_mem_toDigits,
      natOfDigits_toDigits, signed]
    congr 1
    simp only [if_true]
    omega

theorem readInt64?_toString {n : Int} (hle : -0x8000000000000000 ≤ n)
    (hlt : n < 0x8000000000000000) : readInt64? (toString n).toList = some (Int64.ofInt n) := by
  rw [readInt64?, readInt?_toString, Option.bind_some, if_pos ⟨hle, hlt⟩]

theorem startsSolid_toString (n : Int) : StartsSolid (toString n).toList := by
  rw [toList_toString]
  split
  · exact startsSolid_of_isDigit Nat.toDigits_ne_nil isDigit_of_mem_toDigits
  · exact .cons rfl _

theorem endsSolid_toString (n : Int) : EndsSolid (toString n).toList := by
  rw [toList_toString]
  split
  · exact endsSolid_of_isDigit Nat.toDigits_ne_nil isDigit_of_mem_toDigits
  · exact (endsSolid_of_isDigit Nat.toDigits_ne_nil isDigit_of_mem_toDigits).cons _

end ChartQuery.Text
