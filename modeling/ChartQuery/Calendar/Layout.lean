import ChartQuery.Calendar.Date
import ChartQuery.Text.Blank
import ChartQuery.Text.Numeral

namespace ChartQuery.Calendar

open Text

/-- What a layout reads: a date, a time and the distance to UTC in minutes. -/
structure Stamp where
  date : Date
  clock : Clock
  offset : Int
  deriving DecidableEq, Repr

def Stamp.start : Stamp := ⟨⟨0, 0, 0⟩, .midnight, 0⟩

def Stamp.isValid (s : Stamp) : Bool := s.date.isValid && s.clock.isValid

def Stamp.millis (s : Stamp) : Int := epochMillis s.date s.clock s.offset

inductive Quantity where
  | year
  | month
  | day
  | hour
  | minute
  | second
  deriving DecidableEq, Repr

def Stamp.set (s : Stamp) (n : Int) : Quantity → Stamp
  | .year => { s with date.year := n }
  | .month => { s with date.month := n.toNat }
  | .day => { s with date.day := n.toNat }
  | .hour => { s with clock.hour := n.toNat }
  | .minute => { s with clock.minute := n.toNat }
  | .second => { s with clock.second := n.toNat }

inductive Part where
  | fixed (q : Quantity) (width : Nat)
  /-- Blanks, then at least one digit and at most the given number. -/
  | free (q : Quantity) (width : Nat)
  /-- Blanks, then a year: up to four digits, or a sign and any number of digits. -/
  | signedYear
  | mark (cs : List Char)
  | blanks
  /-- A point and digits, or nothing. -/
  | fraction
  /-- The letter Z, or a sign, hours, a colon and minutes. -/
  | offset
  deriving DecidableEq, Repr

abbrev Layout := List Part

/-- Between `least` and `most` digits, as many as there are. -/
def digits? (least most : Nat) (cs : List Char) : Option (Nat × List Char) :=
  let ds := (cs.take most).takeWhile Char.isDigit
  if ds.length < least then none else some (natOfDigits ds, cs.drop ds.length)

def mark? (marks : List Char) : List Char → Option (List Char)
  | c :: cs => if c ∈ marks then some cs else none
  | [] => none

def signedYear? : List Char → Option (Int × List Char)
  | '-' :: cs => (digits? 1 cs.length cs).map fun (n, cs) => (-n, cs)
  | '+' :: cs => (digits? 1 cs.length cs).map fun (n, cs) => (n, cs)
  | cs => (digits? 1 4 cs).map fun (n, cs) => (n, cs)

/-- The milliseconds in the digits of a fraction of a second; finer digits are dropped. -/
def millisOfDigits (ds : List Char) : Nat := natOfDigits ((ds ++ ['0', '0', '0']).take 3)

def fraction? : List Char → Option (Nat × List Char)
  | '.' :: cs =>
    match digitRun cs with
    | ([], _) => none
    | (ds, cs) => some (millisOfDigits ds, cs)
  | cs => some (0, cs)

/-- Hours and minutes of a distance less than a day, in minutes. -/
def distance? (cs : List Char) : Option (Nat × List Char) := do
  let (hours, cs) ← digits? 2 2 cs
  let cs ← mark? [':'] cs
  let (minutes, cs) ← digits? 2 2 cs
  if hours < 24 ∧ minutes < 60 then return (hours * 60 + minutes, cs) else none

/-- The distance to UTC; its minus is a hyphen or the sign U+2212. -/
def offset? : List Char → Option (Int × List Char)
  | c :: cs =>
    if c = 'Z' ∨ c = 'z' then some (0, cs)
    else if c = '+' then (distance? cs).map fun (n, cs) => (n, cs)
    else if c = '-' ∨ c = '\u2212' then (distance? cs).map fun (n, cs) => (-n, cs)
    else none
  | [] => none

def Part.read? (s : Stamp) (cs : List Char) : Part → Option (Stamp × List Char)
  | .fixed q width => (digits? width width cs).map fun (n, cs) => (s.set n q, cs)
  | .free q width => (digits? 1 width (trimStart cs)).map fun (n, cs) => (s.set n q, cs)
  | .signedYear => (signedYear? (trimStart cs)).map fun (n, cs) => (s.set n .year, cs)
  | .mark marks => (mark? marks cs).map fun cs => (s, cs)
  | .blanks => some (s, trimStart cs)
  | .fraction => (fraction? cs).map fun (n, cs) => ({ s with clock.millisecond := n }, cs)
  | .offset => (offset? cs).map fun (n, cs) => ({ s with offset := n }, cs)

def Layout.read? (s : Stamp) (cs : List Char) : Layout → Option Stamp
  | [] => if cs = [] then some s else none
  | part :: rest => do
    let (s, cs) ← part.read? s cs
    Layout.read? s cs rest

namespace Layout

/-- As in `2024-05-06T07:08:09.012+01:00`, with fixed widths and a distance to UTC. -/
def internet : Layout :=
  [.fixed .year 4, .mark ['-'], .fixed .month 2, .mark ['-'], .fixed .day 2,
    .mark ['T', 't', ' '], .fixed .hour 2, .mark [':'], .fixed .minute 2, .mark [':'],
    .fixed .second 2, .fraction, .offset]

/-- As in `2024-5-6`. -/
def date : Layout :=
  [.signedYear, .mark ['-'], .free .month 2, .mark ['-'], .free .day 2]

/-- As in `7:8`. -/
def hourMinute : Layout := [.free .hour 2, .mark [':'], .free .minute 2]

/-- As in `7:8:9.012`. -/
def time : Layout := hourMinute ++ [.mark [':'], .free .second 2, .fraction]

/-- The layouts of an instant, in the order in which they are tried. Where none is named, the
distance to UTC is none and the time is midnight. -/
def all : List Layout :=
  [internet, date ++ .mark ['T'] :: time, date ++ .blanks :: time, date ++ .blanks :: hourMinute,
    date]

end Layout

def instant? (cs : List Char) (layout : Layout) : Option Int :=
  ((layout.read? .start cs).filter Stamp.isValid).map Stamp.millis

/-- The instant that a text writes in the first layout it has, in milliseconds; a text without
one may be a number of milliseconds. -/
def readMillis? (cs : List Char) : Option Int64 :=
  match Layout.all.findSome? (instant? cs) with
  | some n => some (Int64.ofInt n)
  | none => readInt64? cs

end ChartQuery.Calendar
