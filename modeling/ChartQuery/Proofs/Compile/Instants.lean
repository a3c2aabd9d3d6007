import ChartQuery.Compile.Condition
import ChartQuery.Proofs.Binary64.Integer
import ChartQuery.Proofs.Calendar.Days
import ChartQuery.Proofs.Calendar.Layouts

namespace ChartQuery

namespace Calendar

open Text

/-- The text writes an instant: a date of a year with at most four digits and what stands behind
it, or the milliseconds since the start of 1970. -/
inductive Writes : List Char → Int → Prop
  | instant {d : Date} {day : Int} {tail : List Char} {c : Clock} {offset : Int} :
      0 ≤ d.year ∧ d.year ≤ 9999 → d.Counts day → WritesTime tail c offset →
      Writes (d.text ++ tail) (day * 86400000 + c.milliseconds - offset * 60000)
  | integer {n : Int} : n.natAbs ≤ 2 ^ 53 → Writes (toString n).toList n

theorem Clock.IsOrdinary.milliseconds_lt {c : Clock} (h : c.IsOrdinary) :
    c.milliseconds < 86400000 := by
  obtain ⟨hhour, hminute, hsecond, hms⟩ := h
  rw [milliseconds]
  omega

theorem WritesTime.offset_bounds {tail : List Char} {c : Clock} {offset : Int}
    (h : WritesTime tail c offset) : -1440 < offset ∧ offset < 1440 := by
  cases h with
  | unzoned | utc | minutes | midnight => decide
  | offset negative hours minutes _ _ hhours hminutes =>
    rw [signed]
    split <;> omega

namespace Writes

variable {cs : List Char} {n : Int}

theorem bounds (h : Writes cs n) : -0x8000000000000000 ≤ n ∧ n < 0x8000000000000000 := by
  cases h with
  | instant hyear hday htime =>
    obtain ⟨hd, rfl⟩ := Date.counts_iff.mp hday
    have hnumber := hd.year_mem_iff.mp hyear
    have hclock := htime.isOrdinary.milliseconds_lt
    have hoffset := htime.offset_bounds
    omega
  | integer hn => omega

theorem startsSolid (h : Writes cs n) : StartsSolid cs := by
  cases h with
  | instant => exact ((startsSolid_padded 4 _).append _).append _
  | integer => exact startsSolid_toString n

theorem endsSolid (h : Writes cs n) : EndsSolid cs := by
  cases h with
  | instant _ _ htime => exact htime.endsSolid _
  | integer => exact endsSolid_toString n

theorem readMillis?_eq (h : Writes cs n) : readMillis? cs = some (Int64.ofInt n) := by
  have hbounds := h.bounds
  cases h with
  | @instant d day tail c offset hyear hday htime =>
    obtain ⟨hd, rfl⟩ := Date.counts_iff.mp hday
    have hvalid : d.isValid = true := Date.isValid_iff.mpr ⟨by omega, by omega, hd⟩
    rw [readMillis?, findSome?_instant? hyear hd.month_lt hd.day_lt hvalid htime]
    rfl
  | integer =>
    rw [readMillis?, findSome?_instant?_eq_none (startsSolid_toString n) (not_mem_tail_toString n)]
    exact readInt64?_toString hbounds.1 hbounds.2

end Writes

end Calendar

open Calendar

namespace Literal

/-- The value stands for an instant in milliseconds: a number counts them, a text writes it, also
between white space. -/
inductive Spells : Literal → Int → Prop
  | number {x : Binary64} {n : Int} : x.isFinite = true → x.scaled = n * Binary64.scale →
      n.natAbs ≤ 2 ^ 53 → Spells (.number x) n
  | text {s : String} (before cs after : List Char) {n : Int} : s.toList = before ++ cs ++ after →
      (∀ c ∈ before, Text.isBlank c = true) → (∀ c ∈ after, Text.isBlank c = true) →
      Writes cs n → Spells (.text s) n

theorem Spells.toMillis? {l : Literal} {n : Int} (h : l.Spells n) :
    ∃ m : Int64, l.toMillis? = some m ∧ m.toInt = n := by
  have hread : l.toMillis? = some (Int64.ofInt n) := by
    cases h with
    | number hfinite hscaled hn =>
      rw [Literal.toMillis?, if_pos hfinite,
        Binary64.toInt64_of_scaled hscaled (by omega) (by omega)]
    | text _ _ _ hs hbefore hafter hwrites =>
      rw [Literal.toMillis?, hs,
        Text.trim_append_append hbefore hafter hwrites.startsSolid hwrites.endsSolid,
        hwrites.readMillis?_eq]
  have hbounds : -2 ^ 63 ≤ n ∧ n < 2 ^ 63 := by
    cases h with
    | number _ _ hn => omega
    | text _ _ _ _ _ _ hwrites => exact hwrites.bounds
  exact ⟨_, hread, Int64.toInt_ofInt_of_le hbounds.1 hbounds.2⟩

theorem spells_ofInt {n : Int} (h : n.natAbs ≤ 2 ^ 53) : Spells (.number (.ofInt n)) n :=
  .number (Binary64.isFinite_ofInt (Nat.lt_of_le_of_lt h (by decide))) (Binary64.scaled_ofInt h) h

end Literal

namespace Calendar

/-- The date on which an instant lies. -/
def Date.ofMillis (n : Int) : Date := ofDayNumber (n / 86400000)

/-- The time of day of an instant. -/
def Clock.ofMillis (n : Int) : Clock :=
  let ms := (n % 86400000).toNat
  ⟨ms / 3600000, ms / 60000 % 60, ms / 1000 % 60, ms % 1000⟩

theorem Clock.isOrdinary_ofMillis (n : Int) : (ofMillis n).IsOrdinary := by
  constructor <;> simp only [ofMillis] <;> omega

theorem Clock.milliseconds_ofMillis (n : Int) :
    ((ofMillis n).milliseconds : Int) = n % 86400000 := by
  simp only [ofMillis, milliseconds]
  omega

/-- Every instant from the start of 0000 to the end of 9999 is written by its date and time. -/
theorem writes_ofMillis {n offset : Int} {tail : List Char} (hle : -62167219200000 ≤ n)
    (hlt : n < 253402300800000) (h : WritesTime tail (.ofMillis n) offset) :
    Writes ((Date.ofMillis n).text ++ tail) (n - offset * 60000) := by
  obtain ⟨hd, hnumber⟩ := Date.inCalendar_ofDayNumber (n / 86400000)
  have hyear := hd.year_mem_iff.mpr (by omega)
  have hwrites := Writes.instant hyear (Date.counts_ofDayNumber (n / 86400000)) h
  rw [Clock.milliseconds_ofMillis, Int.mul_comm _ 86400000, Int.mul_ediv_add_emod] at hwrites
  exact hwrites

end Calendar

namespace ShelfFilter

/-- A range between instants compiles to their milliseconds, whatever their spelling. There is a
spelling for every valid date, for every integer of up to 53 bits and for every millisecond of the
years with at most four digits. -/
theorem compile_of_spells :
    (∀ (f : ShelfFilter) (lo hi : Literal) (a b : Int), f.rule = some (.temporalRange lo hi) →
      lo.Spells a → hi.Spells b → ∃ lo' hi' : Int64,
        f.compile = .ok ⟨f.fid, .temporalRange lo' hi'⟩ ∧ lo'.toInt = a ∧ hi'.toInt = b) ∧
    (∀ d : Date, d.isValid = true → ∃! day, d.Counts day) ∧
    (∀ n : Int, n.natAbs ≤ 2 ^ 53 → Literal.Spells (.number (.ofInt n)) n) ∧
    (∀ n : Int, -62167219200000 ≤ n → n < 253402300800000 → (Clock.ofMillis n).IsOrdinary ∧
      ∀ (tail : List Char) (offset : Int), WritesTime tail (.ofMillis n) offset →
        Literal.Spells (.text (String.ofList ((Date.ofMillis n).text ++ tail)))
          (n - offset * 60000)) := by
  refine ⟨?_, ?_, fun n => Literal.spells_ofInt, ?_⟩
  · intro f lo hi a b hrule hlo hhi
    obtain ⟨lo', hlo', rfl⟩ := hlo.toMillis?
    obtain ⟨hi', hhi', rfl⟩ := hhi.toMillis?
    have hcondition : f.condition = .ok (.temporalRange lo' hi') := by
      rw [condition, hrule]
      simp only [ShelfRule.compile, ShelfRule.millisAt, hlo', hhi']
      rfl
    exact ⟨lo', hi', by rw [compile, hcondition], rfl, rfl⟩
  · intro d hd
    obtain ⟨-, -, hcalendar⟩ := Date.isValid_iff.mp hd
    exact ⟨d.dayNumber, Date.counts_iff.mpr ⟨hcalendar, rfl⟩,
      fun day hday => (Date.counts_iff.mp hday).2.symm⟩
  · refine fun n hle hlt => ⟨Clock.isOrdinary_ofMillis n, fun tail offset htime => ?_⟩
    refine .text [] _ [] ?_ (List.forall_mem_nil _) (List.forall_mem_nil _)
      (writes_ofMillis hle hlt htime)
    rw [String.toList_ofList, List.nil_append, List.append_nil]

/-- From the last millisecond of 1969, on a clock ahead of UTC, to the second day of 1970. -/
def newYear : ShelfFilter where
  field := .dimension "day"
  rule := some (.temporalRange (.text "1969-12-31T23:59:59.999+01:30")
    (.text " 1970-01-02 00:01\n"))

theorem compile_newYear :
    newYear.compile = .ok ⟨"day", .temporalRange (-5400001) 86460000⟩ := by
  have hlo : Literal.Spells (.text "1969-12-31T23:59:59.999+01:30") (-5400001) := by
    have hday : (⟨1969, 12, 31⟩ : Date).Counts (-1) :=
      .previous ⟨by decide, by decide, 31, rfl, by decide⟩ .start
    have htime : WritesTime "T23:59:59.999+01:30".toList ⟨23, 59, 59, 999⟩ 90 :=
      .offset (c := ⟨23, 59, 59, 999⟩) false 1 30 ⟨by decide, by decide, by decide, by decide⟩
        (.places 999) (by decide) (by decide)
    exact .text [] _ [] rfl (List.forall_mem_nil _) (List.forall_mem_nil _)
      (.instant (by decide) hday htime)
  have hhi : Literal.Spells (.text " 1970-01-02 00:01\n") 86460000 := by
    have hday : (⟨1970, 1, 2⟩ : Date).Counts 1 := .next .start
    have htime : WritesTime " 00:01".toList ⟨0, 1, 0, 0⟩ 0 := .minutes 0 1 (by decide) (by decide)
    exact .text [' '] _ ['\n'] rfl (List.forall_mem_singleton.mpr rfl)
      (List.forall_mem_singleton.mpr rfl) (.instant (by decide) hday htime)
  obtain ⟨lo, hi, hcompile, hlo, hhi⟩ := compile_of_spells.1 newYear _ _ _ _ rfl hlo hhi
  obtain rfl : lo = -5400001 := Int64.toInt_inj.mp hlo
  obtain rfl : hi = 86460000 := Int64.toInt_inj.mp hhi
  exact hcompile

end ShelfFilter

end ChartQuery
