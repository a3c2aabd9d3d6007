import ChartQuery.Calendar.Layout
import ChartQuery.Proofs.Text.Digits

namespace ChartQuery.Calendar

open Text

/-- As in `2024-05-06`. -/
def Date.text (d : Date) : List Char :=
  padded 4 d.year.toNat ++ '-' :: (padded 2 d.month ++ '-' :: padded 2 d.day)

namespace Clock

/-- A time of day that is no leap second. -/
structure IsOrdinary (c : Clock) : Prop where
  hour : c.hour < 24
  minute : c.minute < 60
  second : c.second < 60
  millisecond : c.millisecond < 1000

/-- As in `07:08`. -/
def minuteText (c : Clock) : List Char := padded 2 c.hour ++ ':' :: padded 2 c.minute

/-- As in `07:08:09`. -/
def text (c : Clock) : List Char := c.minuteText ++ ':' :: padded 2 c.second

theorem startsSolid_minuteText (c : Clock) : StartsSolid c.minuteText :=
  (startsSolid_padded 2 c.hour).append _

theorem startsSolid_text (c : Clock) : StartsSolid c.text := c.startsSolid_minuteText.append _

theorem IsOrdinary.isValid {c : Clock} (h : c.IsOrdinary) : c.isValid = true := by
  simp [Clock.isValid, h.hour, h.minute, Nat.le_of_lt h.second, h.millisecond]

end Clock

/-- The text writes the milliseconds of a second: a point and three digits, or nothing if there are
none. -/
inductive WritesFraction : Nat → List Char → Prop
  | places (ms : Nat) : WritesFraction ms ('.' :: padded 3 ms)
  | none : WritesFraction 0 []

/-- As in `+01:30`. -/
def offsetText (negative : Bool) (hours minutes : Nat) : List Char :=
  (if negative then '-' else '+') :: (padded 2 hours ++ ':' :: padded 2 minutes)

theorem digits?_append_of_isDigit {ds : List Char} (h : ∀ c ∈ ds, c.isDigit = true) {least : Nat}
    (hle : least ≤ ds.length) (cs : List Char) :
    digits? least ds.length (ds ++ cs) = some (natOfDigits ds, cs) := by
  have hds : ((ds ++ cs).take ds.length).takeWhile Char.isDigit = ds := by
    rw [List.take_left, List.takeWhile_eq_self_iff.mpr h]
  simp only [digits?, hds, if_neg (Nat.not_lt.mpr hle), List.drop_left]

theorem digits?_padded {least width n : Nat} (hle : least ≤ width) (hwidth : 0 < width)
    (hn : n < 10 ^ width) (cs : List Char) :
    digits? least width (padded width n ++ cs) = some (n, cs) := by
  have hlength := length_padded hwidth hn
  have hdigits : ∀ c ∈ padded width n, c.isDigit = true := isDigit_of_mem_padded
  have hread := digits?_append_of_isDigit hdigits (hle.trans_eq hlength.symm) cs
  rwa [hlength, natOfDigits_padded] at hread

theorem trimStart_padded (width n : Nat) (cs : List Char) :
    trimStart (padded width n ++ cs) = padded width n ++ cs :=
  ((startsSolid_padded width n).append cs).trimStart_eq

theorem signedYear?_padded {n : Nat} (hn : n < 10 ^ 4) (cs : List Char) :
    signedYear? (padded 4 n ++ cs) = some ((n : Int), cs) := by
  obtain ⟨c, ds, hds⟩ := List.exists_cons_of_ne_nil (padded_ne_nil 4 n)
  have hc : c.isDigit = true := isDigit_of_mem_padded c (hds ▸ List.mem_cons_self)
  rw [hds, List.cons_append, signedYear?, ← List.cons_append, ← hds,
    digits?_padded (by decide) (by decide) hn]
  · rfl
  all_goals
    intro cs' heq
    cases heq
    cases hc

theorem digitRun_append_of_isDigit {ds cs : List Char} (h : ∀ c ∈ ds, c.isDigit = true)
    (hcs : ∀ c ∈ cs.head?, c.isDigit = false) : digitRun (ds ++ cs) = (ds, cs) := by
  rw [digitRun, List.takeWhile_append_of_pos h, List.dropWhile_append_of_pos h]
  cases cs with
  | nil => simp
  | cons c cs => simp [hcs c rfl]

theorem millisOfDigits_padded {ms : Nat} (h : ms < 1000) : millisOfDigits (padded 3 ms) = ms := by
  have hlength : (padded 3 ms).length = 3 := length_padded (by decide) h
  rw [millisOfDigits, List.take_left' hlength, natOfDigits_padded]

/-- A text that follows a fraction of a second and cannot be taken for more of it. -/
def EndsFraction (cs : List Char) : Prop := ∀ c ∈ cs.head?, c.isDigit = false ∧ c ≠ '.'

theorem endsFraction_nil : EndsFraction [] := by
  rintro c ⟨⟩

theorem fraction?_append {ms : Nat} {frac : List Char} (h : WritesFraction ms frac)
    (hms : ms < 1000) {cs : List Char} (hcs : EndsFraction cs) :
    fraction? (frac ++ cs) = some (ms, cs) := by
  cases h with
  | places =>
    obtain ⟨d, ds, hds⟩ := List.exists_cons_of_ne_nil (padded_ne_nil 3 ms)
    have hrun : digitRun (padded 3 ms ++ cs) = (padded 3 ms, cs) :=
      digitRun_append_of_isDigit isDigit_of_mem_padded fun c hc => (hcs c hc).1
    have hmillis := millisOfDigits_padded hms
    rw [hds] at hrun hmillis
    simp only [List.cons_append, fraction?, hds] at hrun ⊢
    rw [hrun]
    exact congrArg (fun n => some (n, cs)) hmillis
  | none =>
    rw [List.nil_append, fraction?]
    rintro cs rfl
    exact (hcs '.' rfl).2 rfl

theorem distance?_append {hours minutes : Nat} (hhours : hours < 24) (hminutes : minutes < 60) :
    distance? (padded 2 hours ++ ':' :: padded 2 minutes) = some (hours * 60 + minutes, []) := by
  have hfirst := digits?_padded (Nat.le_refl 2) (Nat.succ_pos 1)
    (show hours < 10 ^ 2 by omega) (':' :: padded 2 minutes)
  have hsecond := digits?_padded (Nat.le_refl 2) (Nat.succ_pos 1)
    (show minutes < 10 ^ 2 by omega) []
  rw [List.append_nil] at hsecond
  simp [distance?, hfirst, mark?, hsecond, hhours, hminutes]

theorem offset?_offsetText (negative : Bool) {hours minutes : Nat} (hhours : hours < 24)
    (hminutes : minutes < 60) : offset? (offsetText negative hours minutes) =
      some (signed negative (hours * 60 + minutes), []) := by
  cases negative with
  | true => simp [offsetText, offset?, distance?_append hhours hminutes, signed]
  | false => simp [offsetText, offset?, distance?_append hhours hminutes, signed]

theorem endsFraction_utc : EndsFraction ['Z'] := by
  intro c hc
  obtain rfl := Option.some.inj hc
  decide

theorem endsFraction_offsetText (negative : Bool) (hours minutes : Nat) :
    EndsFraction (offsetText negative hours minutes) := by
  intro c hc
  obtain rfl := Option.some.inj hc
  cases negative <;> decide

/-- The part reads a number that is written with so many digits. -/
def Part.Reads (part : Part) (q : Quantity) (width : Nat) : Prop :=
  ∀ (s : Stamp) {n : Nat} (cs : List Char), n < 10 ^ width →
    part.read? s (padded width n ++ cs) = some (s.set n q, cs)

theorem Part.reads_fixed (q : Quantity) {width : Nat} (hwidth : 0 < width) :
    (Part.fixed q width).Reads q width := by
  intro s n cs hn
  rw [Part.read?, digits?_padded (Nat.le_refl width) hwidth hn]
  rfl

theorem Part.reads_free (q : Quantity) {width : Nat} (hwidth : 0 < width) :
    (Part.free q width).Reads q width := by
  intro s n cs hn
  rw [Part.read?, trimStart_padded, digits?_padded hwidth hwidth hn]
  rfl

theorem Part.reads_signedYear : Part.signedYear.Reads .year 4 := by
  intro s n cs hn
  rw [Part.read?, trimStart_padded, signedYear?_padded hn]
  rfl

namespace Layout

variable (s : Stamp) (cs : List Char) (rest : Layout)

theorem read?_cons_of_reads {part : Part} {q : Quantity} {width n : Nat} (h : part.Reads q width)
    (hn : n < 10 ^ width) :
    read? s (padded width n ++ cs) (part :: rest) = read? (s.set n q) cs rest := by
  rw [read?, h s cs hn]
  rfl

theorem read?_mark {marks : List Char} {c : Char} (hc : c ∈ marks) :
    read? s (c :: cs) (.mark marks :: rest) = read? s cs rest := by
  simp [read?, Part.read?, mark?, hc]

theorem read?_mark_eq_none {marks : List Char} (hcs : ∀ c ∈ cs.head?, c ∉ marks) :
    read? s cs (.mark marks :: rest) = none := by
  cases cs with
  | nil => rfl
  | cons c cs => simp [read?, Part.read?, mark?, hcs c rfl]

theorem read?_fraction {ms : Nat} {frac : List Char} (h : WritesFraction ms frac)
    (hms : ms < 1000) {cs : List Char} (hcs : EndsFraction cs) :
    read? s (frac ++ cs) (.fraction :: rest) =
      read? { s with clock.millisecond := ms } cs rest := by
  rw [read?, Part.read?, fraction?_append h hms hcs]
  rfl

/-- A date is read by any parts that take the digits of its numbers. -/
theorem read?_date {d : Date} (hyear : 0 ≤ d.year ∧ d.year ≤ 9999) (hmonth : d.month < 100)
    (hday : d.day < 100) {year month day : Part} (hy : year.Reads .year 4)
    (hm : month.Reads .month 2) (hd : day.Reads .day 2) :
    read? s (d.text ++ cs) (year :: .mark ['-'] :: month :: .mark ['-'] :: day :: rest) =
      read? { s with date := d } cs rest := by
  have hlow : d.year.toNat < 10 ^ 4 := by omega
  have hcast : (d.year.toNat : Int) = d.year := Int.toNat_of_nonneg hyear.1
  simp only [Date.text, List.append_assoc, List.cons_append, read?_cons_of_reads _ _ _ hy hlow,
    read?_cons_of_reads _ _ _ hm hmonth, read?_cons_of_reads _ _ _ hd hday,
    read?_mark _ _ _ List.mem_cons_self, Stamp.set, Int.toNat_natCast, hcast]

theorem read?_minutes {c : Clock} (hc : c.IsOrdinary) {hour minute : Part} (hh : hour.Reads .hour 2)
    (hm : minute.Reads .minute 2) :
    read? s (c.minuteText ++ cs) (hour :: .mark [':'] :: minute :: rest) =
      read? { s with clock := ⟨c.hour, c.minute, s.clock.second, s.clock.millisecond⟩ } cs
        rest := by
  have hhour : c.hour < 10 ^ 2 := by have := hc.hour; omega
  have hminute : c.minute < 10 ^ 2 := by have := hc.minute; omega
  simp only [Clock.minuteText, List.append_assoc, List.cons_append,
    read?_cons_of_reads _ _ _ hh hhour, read?_cons_of_reads _ _ _ hm hminute,
    read?_mark _ _ _ List.mem_cons_self, Stamp.set, Int.toNat_natCast]

theorem read?_clock {c : Clock} (hc : c.IsOrdinary) {hour minute second : Part}
    (hh : hour.Reads .hour 2) (hm : minute.Reads .minute 2) (hs : second.Reads .second 2)
    {frac : List Char} (hfrac : WritesFraction c.millisecond frac) {cs : List Char}
    (hcs : EndsFraction cs) :
    read? s (c.text ++ (frac ++ cs))
        (hour :: .mark [':'] :: minute :: .mark [':'] :: second :: .fraction :: rest) =
      read? { s with clock := c } cs rest := by
  have hsecond : c.second < 10 ^ 2 := by have := hc.second; omega
  simp only [Clock.text, List.append_assoc, List.cons_append, read?_minutes _ _ _ hc hh hm,
    read?_mark _ _ _ List.mem_cons_self, read?_cons_of_reads _ _ _ hs hsecond,
    read?_fraction _ _ hfrac hc.millisecond hcs, Stamp.set, Int.toNat_natCast]

end Layout

/-- The text stands behind a date and writes a time of day and its distance to UTC in minutes. -/
inductive WritesTime : List Char → Clock → Int → Prop
  | unzoned {sep : Char} {c : Clock} {frac : List Char} : sep = 'T' ∨ sep = ' ' → c.IsOrdinary →
      WritesFraction c.millisecond frac → WritesTime (sep :: (c.text ++ frac)) c 0
  | utc {c : Clock} {frac : List Char} : c.IsOrdinary → WritesFraction c.millisecond frac →
      WritesTime ('T' :: (c.text ++ (frac ++ ['Z']))) c 0
  | offset {c : Clock} {frac : List Char} (negative : Bool) (hours minutes : Nat) :
      c.IsOrdinary → WritesFraction c.millisecond frac → hours < 24 → minutes < 60 →
      WritesTime ('T' :: (c.text ++ (frac ++ offsetText negative hours minutes))) c
        (signed negative (hours * 60 + minutes))
  | minutes (hour minute : Nat) : hour < 24 → minute < 60 →
      WritesTime (' ' :: Clock.minuteText ⟨hour, minute, 0, 0⟩) ⟨hour, minute, 0, 0⟩ 0
  | midnight : WritesTime [] .midnight 0

theorem WritesTime.isOrdinary {tail : List Char} {c : Clock} {offset : Int}
    (h : WritesTime tail c offset) : c.IsOrdinary := by
  cases h with
  | unzoned _ hc _ => exact hc
  | utc hc _ => exact hc
  | offset _ _ _ hc _ _ _ => exact hc
  | minutes _ _ hhour hminute => exact ⟨hhour, hminute, Nat.succ_pos 59, Nat.succ_pos 999⟩
  | midnight => exact ⟨by decide, by decide, by decide, by decide⟩

theorem endsSolid_fraction {c : Clock} {frac : List Char} (h : WritesFraction c.millisecond frac) :
    EndsSolid (c.text ++ frac) := by
  generalize hms : c.millisecond = ms at h
  cases h with
  | places => exact ((endsSolid_padded 3 ms).cons '.').append _
  | none =>
    rw [List.append_nil]
    exact ((endsSolid_padded 2 c.second).cons ':').append _

theorem endsSolid_offsetText (negative : Bool) (hours minutes : Nat) :
    EndsSolid (offsetText negative hours minutes) :=
  (((endsSolid_padded 2 minutes).cons ':').append _).cons _

theorem WritesTime.endsSolid {tail : List Char} {c : Clock} {offset : Int}
    (h : WritesTime tail c offset) (d : Date) : EndsSolid (d.text ++ tail) := by
  cases h with
  | unzoned _ _ hfrac => exact ((endsSolid_fraction hfrac).cons _).append _
  | @utc _ frac =>
    have hend : EndsSolid ['Z'] := StartsSolid.cons rfl []
    exact (((hend.append frac).append _).cons 'T').append _
  | @offset _ frac negative hours minutes =>
    have hend := endsSolid_offsetText negative hours minutes
    exact (((hend.append frac).append _).cons 'T').append _
  | minutes hour minute =>
    exact ((((endsSolid_padded 2 minute).cons ':').append _).cons ' ').append _
  | midnight =>
    rw [List.append_nil]
    exact ((((endsSolid_padded 2 d.day).cons '-').append _).cons '-').append _

namespace Layout

/-- What the layout of the internet has behind the date. -/
def internetClock : Layout :=
  [.mark ['T', 't', ' '], .fixed .hour 2, .mark [':'], .fixed .minute 2, .mark [':'],
    .fixed .second 2, .fraction, .offset]

/-- What the layouts have behind the date, in the order in which they are tried. -/
def tails : List Layout :=
  [internetClock, .mark ['T'] :: time, .blanks :: time, .blanks :: hourMinute, []]

/-- The layouts differ in what they expect behind a date only. -/
theorem findSome?_all {d : Date} (hyear : 0 ≤ d.year ∧ d.year ≤ 9999) (hmonth : d.month < 100)
    (hday : d.day < 100) (tail : List Char) :
    all.findSome? (instant? (d.text ++ tail)) = tails.findSome? fun layout =>
      ((layout.read? ⟨d, .midnight, 0⟩ tail).filter Stamp.isValid).map Stamp.millis := by
  have hfixed (rest : Layout) := read?_date .start tail rest hyear hmonth hday
    (Part.reads_fixed .year (Nat.succ_pos 3)) (Part.reads_fixed .month (Nat.succ_pos 1))
    (Part.reads_fixed .day (Nat.succ_pos 1))
  have hfree (rest : Layout) := read?_date .start tail rest hyear hmonth hday
    Part.reads_signedYear (Part.reads_free .month (Nat.succ_pos 1))
    (Part.reads_free .day (Nat.succ_pos 1))
  simp only [all, tails, internet, date, List.cons_append, List.nil_append, List.findSome?_cons,
    List.findSome?_nil, instant?, hfixed, hfree]
  rfl

/-- The layout of the internet behind its date. -/
theorem read?_internetClock (s : Stamp) {c : Clock} (hc : c.IsOrdinary) {frac : List Char}
    (hfrac : WritesFraction c.millisecond frac) {sep : Char} (hsep : sep ∈ ['T', 't', ' '])
    {cs : List Char} (hcs : EndsFraction cs) :
    read? s (sep :: (c.text ++ (frac ++ cs))) internetClock =
      read? { s with clock := c } cs [.offset] := by
  rw [internetClock, read?_mark _ _ _ hsep]
  exact read?_clock s _ hc (Part.reads_fixed .hour (Nat.succ_pos 1))
    (Part.reads_fixed .minute (Nat.succ_pos 1)) (Part.reads_fixed .second (Nat.succ_pos 1)) hfrac
    hcs

theorem read?_time (s : Stamp) {c : Clock} (hc : c.IsOrdinary) {frac : List Char}
    (hfrac : WritesFraction c.millisecond frac) :
    read? s (c.text ++ frac) time = some { s with clock := c } := by
  have hread := read?_clock s [] hc (Part.reads_free .hour (Nat.succ_pos 1))
    (Part.reads_free .minute (Nat.succ_pos 1)) (Part.reads_free .second (Nat.succ_pos 1)) hfrac
    endsFraction_nil
  rw [List.append_nil] at hread
  exact hread

theorem read?_hourMinute (s : Stamp) {c : Clock} (hc : c.IsOrdinary) (rest : Layout) :
    read? s c.minuteText (hourMinute ++ rest) =
      read? { s with clock := ⟨c.hour, c.minute, s.clock.second, s.clock.millisecond⟩ } []
        rest := by
  have hread := read?_minutes s [] rest hc (Part.reads_free .hour (Nat.succ_pos 1))
    (Part.reads_free .minute (Nat.succ_pos 1))
  rw [List.append_nil] at hread
  exact hread

theorem read?_blanks (s : Stamp) {cs : List Char} (hcs : StartsSolid cs) (rest : Layout) :
    read? s (' ' :: cs) (.blanks :: rest) = read? s cs rest := by
  have htrim : trimStart (' ' :: cs) = cs := by
    rw [trimStart_cons, if_pos (by rfl), hcs.trimStart_eq]
  rw [read?, Part.read?, htrim]
  rfl

/-- No text has a layout that is tried earlier than the one that is meant. -/
theorem exists_layout (d : Date) {tail : List Char} {c : Clock} {offset : Int}
    (h : WritesTime tail c offset) :
    ∃ earlier layout later, tails = earlier ++ layout :: later ∧
      (∀ l ∈ earlier, read? ⟨d, .midnight, 0⟩ tail l = none) ∧
      read? ⟨d, .midnight, 0⟩ tail layout = some ⟨d, c, offset⟩ := by
  cases h with
  | @unzoned sep _ frac hsep hc hfrac =>
    -- The layout of the internet reads the whole text and then misses the distance to UTC.
    have hinternet : read? ⟨d, .midnight, 0⟩ (sep :: (c.text ++ frac)) internetClock = none := by
      have hmark : sep ∈ ['T', 't', ' '] := by
        rcases hsep with rfl | rfl <;> decide
      have hread := read?_internetClock ⟨d, .midnight, 0⟩ hc hfrac hmark endsFraction_nil
      rwa [List.append_nil] at hread
    rcases hsep with rfl | rfl
    case inl =>
      refine ⟨[internetClock], .mark ['T'] :: time, _, rfl, by simpa using hinternet, ?_⟩
      rw [read?_mark _ _ _ List.mem_cons_self, read?_time _ hc hfrac]
    case inr =>
      have hmark : read? ⟨d, .midnight, 0⟩ (' ' :: (c.text ++ frac)) (.mark ['T'] :: time) = none :=
        rfl
      refine ⟨[internetClock, .mark ['T'] :: time], .blanks :: time, _, rfl,
        by simpa using ⟨hinternet, hmark⟩, ?_⟩
      rw [read?_blanks _ (c.startsSolid_text.append frac), read?_time _ hc hfrac]
  | @utc _ frac hc hfrac =>
    refine ⟨[], internetClock, _, rfl, List.forall_mem_nil _, ?_⟩
    rw [read?_internetClock _ hc hfrac List.mem_cons_self endsFraction_utc]
    rfl
  | @offset _ frac negative hours minutes hc hfrac hhours hminutes =>
    refine ⟨[], internetClock, _, rfl, List.forall_mem_nil _, ?_⟩
    rw [read?_internetClock _ hc hfrac List.mem_cons_self
      (endsFraction_offsetText negative hours minutes), read?, Part.read?,
      offset?_offsetText negative hhours hminutes]
    rfl
  | @minutes hour minute hhour hminute =>
    -- The layouts with seconds read the whole text and then miss the second colon.
    have hc := (WritesTime.minutes hour minute hhour hminute).isOrdinary
    have hinternet : read? ⟨d, .midnight, 0⟩ (' ' :: Clock.minuteText ⟨hour, minute, 0, 0⟩)
        internetClock = none := by
      have hread := read?_minutes ⟨d, .midnight, 0⟩ [] [.mark [':'], .fixed .second 2, .fraction,
        .offset] hc (Part.reads_fixed .hour (Nat.succ_pos 1))
        (Part.reads_fixed .minute (Nat.succ_pos 1))
      rw [List.append_nil] at hread
      exact (read?_mark _ _ _ (by decide)).trans hread
    have hmark : read? ⟨d, .midnight, 0⟩ (' ' :: Clock.minuteText ⟨hour, minute, 0, 0⟩)
        (.mark ['T'] :: time) = none := rfl
    have htime : read? ⟨d, .midnight, 0⟩ (' ' :: Clock.minuteText ⟨hour, minute, 0, 0⟩)
        (.blanks :: time) = none := by
      rw [read?_blanks _ (Clock.startsSolid_minuteText _)]
      exact read?_hourMinute _ hc [.mark [':'], .free .second 2, .fraction]
    refine ⟨[internetClock, .mark ['T'] :: time, .blanks :: time], .blanks :: hourMinute, _, rfl,
      by simpa using ⟨hinternet, hmark, htime⟩, ?_⟩
    rw [read?_blanks _ (Clock.startsSolid_minuteText _)]
    exact read?_hourMinute _ hc []
  | midnight =>
    refine ⟨[internetClock, .mark ['T'] :: time, .blanks :: time, .blanks :: hourMinute], [], _,
      rfl, ?_, rfl⟩
    simp only [List.forall_mem_cons]
    exact ⟨rfl, rfl, rfl, rfl, List.forall_mem_nil _⟩

end Layout

/-- A date with a time behind it is read as its instant. -/
theorem findSome?_instant? {d : Date} {tail : List Char} {c : Clock} {offset : Int}
    (hyear : 0 ≤ d.year ∧ d.year ≤ 9999) (hmonth : d.month < 100) (hday : d.day < 100)
    (hd : d.isValid = true) (h : WritesTime tail c offset) :
    Layout.all.findSome? (instant? (d.text ++ tail)) = some (epochMillis d c offset) := by
  obtain ⟨earlier, layout, later, htails, hearlier, hmeant⟩ := Layout.exists_layout d h
  have hvalid : Stamp.isValid ⟨d, c, offset⟩ = true := by
    rw [Stamp.isValid, hd, h.isOrdinary.isValid]
    rfl
  rw [Layout.findSome?_all hyear hmonth hday, htails, List.findSome?_append,
    List.findSome?_eq_none_iff.mpr fun l hl => by rw [hearlier l hl]; rfl]
  rw [Option.none_or, List.findSome?_cons, hmeant, Option.filter_some_pos hvalid]
  rfl

theorem mem_tail_of_digits? {least most n : Nat} {cs rest : List Char} (hleast : 0 < least)
    (h : digits? least most cs = some (n, rest)) {c : Char} (hc : c ∈ rest) : c ∈ cs.tail := by
  rw [digits?] at h
  split at h
  case isTrue => cases h
  case isFalse hlength =>
    cases h
    obtain ⟨k, hk⟩ := Nat.exists_eq_add_of_le' (Nat.lt_of_lt_of_le hleast (Nat.not_lt.mp hlength))
    rw [hk, Nat.add_comm, ← List.drop_drop, List.drop_one] at hc
    exact List.mem_of_mem_drop hc

theorem mem_tail_of_signedYear? {n : Int} {cs rest : List Char}
    (h : signedYear? cs = some (n, rest)) {c : Char} (hc : c ∈ rest) : c ∈ cs.tail := by
  rw [signedYear?.eq_def] at h
  split at h
  all_goals
    simp only [Option.map_eq_some_iff, Prod.exists] at h
    obtain ⟨m, cs', hread, heq⟩ := h
    cases heq
    have hmem := mem_tail_of_digits? (Nat.succ_pos 0) hread hc
  · exact List.mem_of_mem_tail hmem
  · exact List.mem_of_mem_tail hmem
  · exact hmem

theorem Layout.read?_year_eq_none (s : Stamp) (rest : Layout) {part : Part} {cs : List Char}
    (hpart : ∀ {s' : Stamp} {cs' : List Char}, part.read? s cs = some (s', cs') →
      ∀ c ∈ cs', c ∈ cs.tail) (hcs : '-' ∉ cs.tail) :
    read? s cs (part :: .mark ['-'] :: rest) = none := by
  rw [read?]
  cases hread : part.read? s cs with
  | none => rfl
  | some p =>
    refine read?_mark_eq_none p.1 p.2 rest fun c hc hmark => hcs ?_
    obtain rfl := List.mem_singleton.mp hmark
    exact hpart hread '-' (List.mem_of_mem_head? hc)

/-- A text without a hyphen behind its first character is no date. -/
theorem findSome?_instant?_eq_none {cs : List Char} (hsolid : StartsSolid cs)
    (hcs : '-' ∉ cs.tail) : Layout.all.findSome? (instant? cs) = none := by
  have hfixed (rest : Layout) :
      Layout.read? .start cs (.fixed .year 4 :: .mark ['-'] :: rest) = none := by
    refine Layout.read?_year_eq_none _ _ (fun h c hc => ?_) hcs
    simp only [Part.read?, Option.map_eq_some_iff, Prod.exists] at h
    obtain ⟨n, cs', hread, heq⟩ := h
    cases heq
    exact mem_tail_of_digits? (Nat.succ_pos 3) hread hc
  have hsigned (rest : Layout) :
      Layout.read? .start cs (.signedYear :: .mark ['-'] :: rest) = none := by
    refine Layout.read?_year_eq_none _ _ (fun h c hc => ?_) hcs
    simp only [Part.read?, hsolid.trimStart_eq, Option.map_eq_some_iff, Prod.exists] at h
    obtain ⟨n, cs', hread, heq⟩ := h
    cases heq
    exact mem_tail_of_signedYear? hread hc
  simp [Layout.all, Layout.internet, Layout.date, instant?, hfixed, hsigned]

theorem not_mem_tail_toString (n : Int) : '-' ∉ (toString n).toList.tail := by
  intro h
  have hdigit : '-' ∈ Nat.toDigits 10 n.toNat ∨ '-' ∈ Nat.toDigits 10 (-n).toNat := by
    rw [toList_toString] at h
    split at h
    · exact .inl (List.mem_of_mem_tail h)
    · exact .inr h
  rcases hdigit with hdigit | hdigit <;> cases isDigit_of_mem_toDigits '-' hdigit

end ChartQuery.Calendar
