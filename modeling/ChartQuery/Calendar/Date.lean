namespace ChartQuery.Calendar

def isLeap (year : Int) : Bool := year % 4 == 0 && (year % 100 != 0 || year % 400 == 0)

def monthLengths (year : Int) : List Nat :=
  [31, if isLeap year then 29 else 28, 31, 30, 31, 30, 31, 31, 30, 31, 30, 31]

structure Date where
  year : Int
  month : Nat
  day : Nat
  deriving DecidableEq, Repr

namespace Date

/-- A day of the calendar, in one of the years that are kept. -/
def isValid (d : Date) : Bool :=
  decide (-262143 ≤ d.year ∧ d.year ≤ 262142 ∧ 1 ≤ d.month ∧ 1 ≤ d.day) &&
    ((monthLengths d.year)[d.month - 1]?).any (d.day ≤ ·)

/-- Days from 0001-01-01 to the first day of a year. -/
def daysBeforeYear (year : Int) : Int :=
  let y := year - 1
  365 * y + y / 4 - y / 100 + y / 400

def daysBeforeMonth (year : Int) (month : Nat) : Nat :=
  ((monthLengths year).take (month - 1)).foldr (· + ·) 0

/-- Days from 1970-01-01, negative before it. -/
def dayNumber (d : Date) : Int :=
  daysBeforeYear d.year + daysBeforeMonth d.year d.month + d.day - 1 - 719162

end Date

/-- A time of day in milliseconds. The second 60 is a leap second. -/
structure Clock where
  hour : Nat
  minute : Nat
  second : Nat
  millisecond : Nat
  deriving DecidableEq, Repr

namespace Clock

def midnight : Clock := ⟨0, 0, 0, 0⟩

def isValid (c : Clock) : Bool :=
  c.hour < 24 && c.minute < 60 && c.second ≤ 60 && c.millisecond < 1000

def milliseconds (c : Clock) : Nat :=
  ((c.hour * 60 + c.minute) * 60 + c.second) * 1000 + c.millisecond

end Clock

/-- Milliseconds from the start of 1970 to a date and time of a place `offset` minutes ahead of
UTC. -/
def epochMillis (d : Date) (c : Clock) (offset : Int) : Int :=
  d.dayNumber * 86400000 + c.milliseconds - offset * 60000

end ChartQuery.Calendar
