import ChartQuery.Calendar.Date
import Mathlib.Algebra.GroupWithZero.Nat
import Mathlib.Algebra.Order.BigOperators.Group.List
import Mathlib.Algebra.Order.Group.Nat

namespace ChartQuery.Calendar

theorem sum_take_succ {ls : List Nat} {i l : Nat} (h : ls[i]? = some l) :
    (ls.take (i + 1)).sum = (ls.take i).sum + l := by
  rw [List.take_add_one, h, Option.toList_some, List.sum_append]
  simp

theorem sum_take_mono (ls : List Nat) {i j : Nat} (h : i ≤ j) : (ls.take i).sum ≤ (ls.take j).sum :=
  (List.take_sublist_take_left h).sum_le_sum fun _ _ => Nat.zero_le _

theorem isLeap_iff (year : Int) :
    isLeap year = true ↔ year % 4 = 0 ∧ (year % 100 ≠ 0 ∨ year % 400 = 0) := by
  simp only [isLeap, Bool.and_eq_true, Bool.or_eq_true, beq_iff_eq, bne_iff_ne]

namespace Date

/-- A day of the calendar, in any year. -/
structure InCalendar (d : Date) : Prop where
  month_pos : 1 ≤ d.month
  day_pos : 1 ≤ d.day
  fits : ∃ l, (monthLengths d.year)[d.month - 1]? = some l ∧ d.day ≤ l

/-- The day after it, which may be the first one of the next month. -/
def next (d : Date) : Date :=
  if ((monthLengths d.year)[d.month - 1]?).any (d.day < ·) then { d with day := d.day + 1 }
  else if d.month < 12 then ⟨d.year, d.month + 1, 1⟩
  else ⟨d.year + 1, 1, 1⟩

/-- Counts days one by one, both ways from 1970-01-01. -/
inductive Counts : Date → Int → Prop
  | start : Counts ⟨1970, 1, 1⟩ 0
  | next {d : Date} {n : Int} : Counts d n → Counts d.next (n + 1)
  | previous {d : Date} {n : Int} : d.InCalendar → Counts d.next (n + 1) → Counts d n

theorem daysBeforeMonth_eq_sum (year : Int) (month : Nat) :
    daysBeforeMonth year month = ((monthLengths year).take (month - 1)).sum := rfl

theorem daysBeforeMonth_mono (year : Int) {month later : Nat} (h : month ≤ later) :
    daysBeforeMonth year month ≤ daysBeforeMonth year later := by
  rw [daysBeforeMonth_eq_sum, daysBeforeMonth_eq_sum]
  exact sum_take_mono _ (Nat.sub_le_sub_right h 1)

theorem daysBeforeMonth_succ {year : Int} {month l : Nat} (hmonth : 1 ≤ month)
    (hl : (monthLengths year)[month - 1]? = some l) :
    daysBeforeMonth year (month + 1) = daysBeforeMonth year month + l := by
  rw [daysBeforeMonth_eq_sum, daysBeforeMonth_eq_sum, ← sum_take_succ hl]
  congr 2
  omega

theorem sum_monthLengths (year : Int) :
    (monthLengths year).sum = if isLeap year then 366 else 365 := by
  rw [monthLengths]
  cases isLeap year <;> rfl

theorem daysBeforeYear_succ (year : Int) :
    daysBeforeYear (year + 1) = daysBeforeYear year + (monthLengths year).sum := by
  rw [sum_monthLengths]
  simp only [daysBeforeYear]
  by_cases hleap : isLeap year = true
  · rw [if_pos hleap]
    rw [isLeap_iff] at hleap
    omega
  · rw [if_neg hleap]
    rw [isLeap_iff] at hleap
    omega

theorem length_monthLengths (year : Int) : (monthLengths year).length = 12 := rfl

theorem month_le_of_getElem?_eq_some {year : Int} {month l : Nat}
    (hl : (monthLengths year)[month - 1]? = some l) : month ≤ 12 := by
  have hlt := (List.getElem?_eq_some_iff.mp hl).1
  rw [length_monthLengths] at hlt
  omega

theorem bounds_of_getElem?_eq_some {year : Int} {i l : Nat}
    (hl : (monthLengths year)[i]? = some l) : 1 ≤ l ∧ l ≤ 31 := by
  have hall : ∀ l ∈ monthLengths year, 1 ≤ l ∧ l ≤ 31 := by
    rw [monthLengths]
    cases isLeap year <;> decide
  exact hall l (List.mem_of_getElem? hl)

namespace InCalendar

theorem month_lt {d : Date} (h : d.InCalendar) : d.month < 100 := by
  obtain ⟨-, -, l, hl, -⟩ := h
  exact Nat.lt_of_le_of_lt (month_le_of_getElem?_eq_some hl) (by decide)

theorem day_lt {d : Date} (h : d.InCalendar) : d.day < 100 := by
  obtain ⟨-, -, l, hl, hle⟩ := h
  have hlength := (bounds_of_getElem?_eq_some hl).2
  omega

theorem next {d : Date} (h : d.InCalendar) : d.next.InCalendar := by
  obtain ⟨hmonth, hday, l, hl, hle⟩ := h
  rw [Date.next, hl, Option.any_some]
  split
  case isTrue hlt => exact ⟨hmonth, Nat.le_add_left _ _, l, hl, of_decide_eq_true hlt⟩
  case isFalse =>
    split
    case isTrue hlt =>
      have hi : d.month < (monthLengths d.year).length := by rwa [length_monthLengths]
      refine ⟨Nat.le_add_left _ _, Nat.le_refl 1, _, List.getElem?_eq_getElem hi, ?_⟩
      exact (bounds_of_getElem?_eq_some (List.getElem?_eq_getElem hi)).1
    case isFalse => exact ⟨Nat.le_refl 1, Nat.le_refl 1, 31, rfl, Nat.le_add_left 1 30⟩

theorem dayNumber_next {d : Date} (h : d.InCalendar) : d.next.dayNumber = d.dayNumber + 1 := by
  obtain ⟨hmonth, hday, l, hl, hle⟩ := h
  have hsucc := daysBeforeMonth_succ hmonth hl
  rw [Date.next, hl, Option.any_some]
  split
  case isTrue hlt =>
    simp only [dayNumber]
    omega
  case isFalse hlt =>
    have hlast : d.day = l := by simp at hlt; omega
    split
    case isTrue =>
      simp only [dayNumber]
      omega
    case isFalse hge =>
      have hmonth12 : d.month = 12 := by
        have := month_le_of_getElem?_eq_some hl
        omega
      have hyear : daysBeforeMonth d.year (12 + 1) = (monthLengths d.year).sum := rfl
      have hjanuary : daysBeforeMonth (d.year + 1) 1 = 0 := rfl
      rw [hmonth12, hyear] at hsucc
      simp only [dayNumber, daysBeforeYear_succ, hjanuary, hmonth12]
      omega

theorem exists_next_eq {d : Date} (h : d.InCalendar) : ∃ p : Date, p.InCalendar ∧ p.next = d := by
  obtain ⟨year, month, day⟩ := d
  obtain ⟨hmonth, hday, l, hl, hle⟩ := h
  have hmonth12 : month ≤ 12 := month_le_of_getElem?_eq_some hl
  change 1 ≤ month at hmonth
  change 1 ≤ day at hday
  change day ≤ l at hle
  by_cases hfirst : day = 1
  · by_cases hjanuary : month = 1
    -- The day before is the last one of the year before, or else of the month before.
    · refine ⟨⟨year - 1, 12, 31⟩, ⟨Nat.le_add_left 1 11, Nat.le_add_left 1 30, 31, rfl,
        Nat.le_refl 31⟩, ?_⟩
      simp [Date.next, monthLengths, hfirst, hjanuary]
    · have hi : month - 1 - 1 < (monthLengths year).length := by
        rw [length_monthLengths]
        omega
      have hlast := List.getElem?_eq_getElem hi
      refine ⟨⟨year, month - 1, (monthLengths year)[month - 1 - 1]⟩, ⟨?_, ?_, _, hlast, ?_⟩, ?_⟩
      · exact Nat.le_sub_one_of_lt (by omega)
      · exact (bounds_of_getElem?_eq_some hlast).1
      · exact Nat.le_refl _
      · have hlt : month - 1 < 12 := by omega
        simp only [Date.next, hlast, Option.any_some, Nat.lt_irrefl, decide_false,
          Bool.false_eq_true, if_false, if_pos hlt, hfirst, Nat.sub_add_cancel hmonth]
  · refine ⟨⟨year, month, day - 1⟩, ⟨hmonth, ?_, l, hl, ?_⟩, ?_⟩
    · exact Nat.le_sub_one_of_lt (by omega)
    · exact Nat.le_trans (Nat.sub_le _ _) hle
    · have hlt : day - 1 < l := by omega
      simp only [Date.next, hl, Option.any_some, hlt, decide_true, if_true,
        Nat.sub_add_cancel hday]

/-- The number of a day lies between those of the first days of its year and of the next. -/
theorem dayNumber_bounds {d : Date} (h : d.InCalendar) :
    daysBeforeYear d.year ≤ d.dayNumber + 719162 ∧
      d.dayNumber + 719162 < daysBeforeYear (d.year + 1) := by
  obtain ⟨hmonth, hday, l, hl, hle⟩ := h
  have hsucc := daysBeforeMonth_succ hmonth hl
  have htotal : daysBeforeMonth d.year (d.month + 1) ≤ (monthLengths d.year).sum :=
    daysBeforeMonth_mono d.year (Nat.succ_le_succ (month_le_of_getElem?_eq_some hl))
  rw [daysBeforeYear_succ, dayNumber]
  omega

end InCalendar

theorem daysBeforeYear_mono {y z : Int} (h : y ≤ z) : daysBeforeYear y ≤ daysBeforeYear z := by
  rw [daysBeforeYear, daysBeforeYear]
  omega

theorem eq_start_of_dayNumber_eq_zero {d : Date} (h : d.InCalendar) (hd : d.dayNumber = 0) :
    d = ⟨1970, 1, 1⟩ := by
  obtain ⟨hle, hlt⟩ := h.dayNumber_bounds
  obtain ⟨year, month, day⟩ := d
  obtain ⟨hmonth, hday, l, hl, -⟩ := h
  obtain rfl : year = 1970 := by
    simp only [hd, daysBeforeYear] at hle hlt
    omega
  have hyear : daysBeforeYear 1970 = 719162 := rfl
  simp only [dayNumber, hyear] at hd hday
  obtain rfl : day = 1 := by omega
  have hbefore : daysBeforeMonth 1970 month = 0 := by omega
  obtain rfl : month = 1 := by
    by_contra hne
    have hjanuary : daysBeforeMonth 1970 2 ≤ daysBeforeMonth 1970 month :=
      daysBeforeMonth_mono 1970 (Nat.lt_of_le_of_ne hmonth (Ne.symm hne))
    have hlength : daysBeforeMonth 1970 2 = 31 := rfl
    omega
  rfl

theorem isValid_iff {d : Date} :
    d.isValid = true ↔ -262143 ≤ d.year ∧ d.year ≤ 262142 ∧ d.InCalendar := by
  simp only [isValid, Bool.and_eq_true, decide_eq_true_eq, Option.any_eq_true]
  constructor
  · rintro ⟨⟨hlo, hhi, hmonth, hday⟩, l, hl, hle⟩
    exact ⟨hlo, hhi, hmonth, hday, l, hl, hle⟩
  · rintro ⟨hlo, hhi, hmonth, hday, l, hl, hle⟩
    exact ⟨⟨hlo, hhi, hmonth, hday⟩, l, hl, hle⟩

/-- The days from 0000-01-01 to 9999-12-31 are those of the years with at most four digits. -/
theorem InCalendar.year_mem_iff {d : Date} (h : d.InCalendar) :
    (0 ≤ d.year ∧ d.year ≤ 9999) ↔ -719528 ≤ d.dayNumber ∧ d.dayNumber ≤ 2932896 := by
  obtain ⟨hle, hlt⟩ := h.dayNumber_bounds
  have hfirst : daysBeforeYear 0 = -366 := rfl
  have hlast : daysBeforeYear 10000 = 3652059 := rfl
  constructor
  · rintro ⟨hlo, hhi⟩
    have hbefore := daysBeforeYear_mono hlo
    have hafter := daysBeforeYear_mono (show d.year + 1 ≤ 10000 by omega)
    omega
  · rintro ⟨hlo, hhi⟩
    constructor
    · by_contra hneg
      have hbefore := daysBeforeYear_mono (show d.year + 1 ≤ 0 by omega)
      omega
    · by_contra hlate
      have hafter := daysBeforeYear_mono (show 10000 ≤ d.year by omega)
      omega

/-- The number of a day is what the count gives. -/
theorem counts_iff {d : Date} {n : Int} : d.Counts n ↔ d.InCalendar ∧ d.dayNumber = n := by
  constructor
  · intro h
    induction h with
    | start => exact ⟨⟨Nat.le_refl 1, Nat.le_refl 1, 31, rfl, by decide⟩, rfl⟩
    | next _ ih => exact ⟨ih.1.next, by rw [ih.1.dayNumber_next, ih.2]⟩
    | previous hp _ ih =>
      refine ⟨hp, ?_⟩
      have := hp.dayNumber_next
      omega
  · rintro ⟨h, rfl⟩
    -- On the distance to 1970-01-01, which the neighbour on that side is closer to.
    induction hk : d.dayNumber.natAbs generalizing d with
    | zero =>
      have hzero : d.dayNumber = 0 := Int.natAbs_eq_zero.mp hk
      rw [hzero, eq_start_of_dayNumber_eq_zero h hzero]
      exact .start
    | succ k ih =>
      by_cases hneg : d.dayNumber < 0
      · have hnext := h.dayNumber_next
        have hcounts := ih h.next (by omega)
        rw [hnext] at hcounts
        exact .previous h hcounts
      · obtain ⟨p, hp, rfl⟩ := h.exists_next_eq
        have hnext := hp.dayNumber_next
        have hcounts := ih hp (by omega)
        rw [hnext]
        exact hcounts.next

/-- The year in which the day lies that comes so many days after 0001-01-01. A year has 146097 / 400
days on average, and the count of leap years is never far from that. -/
def yearOfDay (days : Int) : Int :=
  let year := 400 * days / 146097 + 1
  if days < daysBeforeYear year then year - 1
  else if daysBeforeYear (year + 1) ≤ days then year + 1
  else year

/-- Month and day of the month that come so many days after the first day of a month, if the months
have these lengths from then on. -/
def monthAndDay : List Nat → Nat → Nat → Nat × Nat
  | [], month, days => (month, days + 1)
  | l :: ls, month, days =>
    if days < l then (month, days + 1) else monthAndDay ls (month + 1) (days - l)

def ofDayNumber (n : Int) : Date :=
  let year := yearOfDay (n + 719162)
  let (month, day) :=
    monthAndDay (monthLengths year) 1 (n + 719162 - daysBeforeYear year).toNat
  ⟨year, month, day⟩

theorem yearOfDay_bounds (days : Int) :
    daysBeforeYear (yearOfDay days) ≤ days ∧ days < daysBeforeYear (yearOfDay days + 1) := by
  unfold yearOfDay
  dsimp only
  split
  case isTrue h =>
    simp only [daysBeforeYear] at h ⊢
    omega
  case isFalse h =>
    split
    case isTrue h' =>
      simp only [daysBeforeYear] at h h' ⊢
      omega
    case isFalse h' =>
      simp only [daysBeforeYear] at h h' ⊢
      omega

theorem monthAndDay_spec {ls : List Nat} (month : Nat) {days : Nat} (h : days < ls.sum) :
    ∃ i l, (monthAndDay ls month days).1 = month + i ∧ ls[i]? = some l ∧
      1 ≤ (monthAndDay ls month days).2 ∧ (monthAndDay ls month days).2 ≤ l ∧
      (ls.take i).sum + (monthAndDay ls month days).2 = days + 1 := by
  induction ls generalizing month days with
  | nil => cases h
  | cons l ls ih =>
    rw [monthAndDay]
    split
    case isTrue hlt => exact ⟨0, l, rfl, rfl, Nat.le_add_left _ _, hlt, by simp⟩
    case isFalse hge =>
      rw [List.sum_cons] at h
      have hrest : days - l < ls.sum := by omega
      obtain ⟨i, l', hmonth, hl, hpos, hle, hsum⟩ := ih (month + 1) hrest
      refine ⟨i + 1, l', by omega, hl, hpos, hle, ?_⟩
      rw [List.take_succ_cons, List.sum_cons]
      omega

theorem inCalendar_ofDayNumber (n : Int) :
    (ofDayNumber n).InCalendar ∧ (ofDayNumber n).dayNumber = n := by
  obtain ⟨hle, hlt⟩ := yearOfDay_bounds (n + 719162)
  rw [daysBeforeYear_succ] at hlt
  have hdays : (n + 719162 - daysBeforeYear (yearOfDay (n + 719162))).toNat <
      (monthLengths (yearOfDay (n + 719162))).sum := by omega
  obtain ⟨i, l, hmonth, hl, hpos, hday, hsum⟩ := monthAndDay_spec 1 hdays
  constructor
  · refine ⟨?_, hpos, l, ?_, hday⟩
    · simp only [ofDayNumber, hmonth]
      omega
    · simp only [ofDayNumber, hmonth, Nat.add_sub_cancel_left]
      exact hl
  · simp only [ofDayNumber, dayNumber, daysBeforeMonth_eq_sum, hmonth, Nat.add_sub_cancel_left]
    omega

theorem counts_ofDayNumber (n : Int) : (ofDayNumber n).Counts n :=
  counts_iff.mpr (inCalendar_ofDayNumber n)

example : ofDayNumber 19782 = ⟨2024, 2, 29⟩ := by decide

end Date

end ChartQuery.Calendar
