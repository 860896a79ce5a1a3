import TypedRecords.Number.Layout

/-! # Instants

An instant is a day of the proleptic Gregorian calendar, a second of that day and a nanosecond, in
UTC. A leap second is the second before it with a nanosecond of 10^9 or more, so that instants are
ordered by their three parts. Days count from 1 March of the year 0.
-/

namespace TypedRecords

structure Instant where
  day : Int
  second : Nat
  nano : Nat
deriving DecidableEq, Repr

/-- A day by year, month and day of the month. -/
structure CivilDay where
  year : Int
  month : Nat
  dayOfMonth : Nat
deriving DecidableEq, Repr

namespace CivilDay

def isLeap (year : Int) : Bool :=
  year % 4 = 0 && (year % 100 != 0 || year % 400 = 0)

def daysInMonth (year : Int) (month : Nat) : Nat :=
  if month = 2 then (if isLeap year then 29 else 28)
  else if month = 4 || month = 6 || month = 9 || month = 11 then 30
  else 31

/-- Whether the calendar has the day. -/
def isValid (d : CivilDay) : Bool :=
  1 ≤ d.month && d.month ≤ 12 && 1 ≤ d.dayOfMonth && d.dayOfMonth ≤ daysInMonth d.year d.month

/-- Days from 1 March of the year 0. The leap day is the last day of a year that begins in March. -/
def toDay (d : CivilDay) : Int :=
  let year := if d.month ≤ 2 then d.year - 1 else d.year
  let era := Int.fdiv year 400
  let yearOfEra := year - era * 400
  let monthFromMarch := (d.month + 9) % 12
  let dayOfYear : Int := ((153 * monthFromMarch + 2) / 5 + d.dayOfMonth - 1 : Nat)
  era * 146097 + (yearOfEra * 365 + yearOfEra / 4 - yearOfEra / 100 + dayOfYear)

/-- The calendar day at a number of days from 1 March of the year 0. -/
def ofDay (day : Int) : CivilDay :=
  let era := Int.fdiv day 146097
  let dayOfEra := day - era * 146097
  let yearOfEra :=
    (dayOfEra - dayOfEra / 1460 + dayOfEra / 36524 - dayOfEra / 146096) / 365
  let dayOfYear := dayOfEra - (365 * yearOfEra + yearOfEra / 4 - yearOfEra / 100)
  let monthFromMarch := (5 * dayOfYear + 2) / 153
  let dayOfMonth := dayOfYear - (153 * monthFromMarch + 2) / 5 + 1
  let month := if monthFromMarch < 10 then monthFromMarch + 3 else monthFromMarch - 9
  let year := yearOfEra + era * 400
  ⟨if month ≤ 2 then year + 1 else year, month.natAbs, dayOfMonth.natAbs⟩

end CivilDay

namespace Instant

/-- Order in time. -/
def compare (a b : Instant) : Ordering :=
  (Ord.compare a.day b.day).then
    ((Ord.compare a.second b.second).then (Ord.compare a.nano b.nano))

/-- The instant so many minutes earlier. -/
def minusMinutes (t : Instant) (minutes : Int) : Instant :=
  let total : Int := t.second - minutes * 60
  { t with day := t.day + Int.fdiv total 86400, second := (Int.fmod total 86400).natAbs }

theorem compare_self (t : Instant) : t.compare t = .eq := by
  simp [compare, Ordering.then]

end Instant

end TypedRecords
