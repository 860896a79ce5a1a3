import TypedRecords.Calendar.Instant

/-! # Timestamps

The text of an instant: `YYYY-MM-DDTHH:MM:SS`, a fraction, and an offset from UTC. Reading accepts
years of four digits, any number of fraction digits of which nine count, a blank or a small `t`
between day and time, and offsets below a day. Writing is in UTC, cut to milliseconds.
-/

namespace TypedRecords.Timestamp

/-! ### Reading -/

/-- Value of a decimal digit. -/
def digit? (c : Char) : Option Nat :=
  if c.isDigit then some (c.toNat - '0'.toNat) else none

/-- A number of exactly `count` digits, and what follows it. -/
def number? : (count : Nat) → (acc : Nat) → List Char → Option (Nat × List Char)
  | 0, acc, cs => some (acc, cs)
  | _ + 1, _, [] => none
  | count + 1, acc, c :: cs =>
    match digit? c with
    | some d => number? count (acc * 10 + d) cs
    | none => none

/-- What follows an expected character. -/
def expect? (wanted : List Char) : List Char → Option (List Char)
  | c :: cs => if wanted.contains c then some cs else none
  | [] => none

/-- Nanoseconds of a fraction's digits; digits past the ninth do not count. -/
def fraction : (place : Nat) → List Char → Nat
  | _, [] => 0
  | 0, _ => 0
  | place + 1, c :: cs => (c.toNat - '0'.toNat) * Nat.pow 10 place + fraction place cs

/-- A fraction, if there is one: a point and at least one digit. -/
def fraction? : List Char → Option (Nat × List Char)
  | '.' :: cs =>
    let digits := cs.takeWhile Char.isDigit
    if digits.isEmpty then none else some (fraction 9 digits, cs.dropWhile Char.isDigit)
  | cs => some (0, cs)

/-- Minutes east of UTC. -/
def offset? (cs : List Char) : Option (Int × List Char) := do
  match cs with
  | 'Z' :: rest => some (0, rest)
  | 'z' :: rest => some (0, rest)
  | sign :: rest =>
    let negative ← if sign = '+' then some false
      else if sign = '-' || sign = '\u2212' then some true else none
    let (hours, rest) ← number? 2 0 rest
    let rest ← expect? [':'] rest
    let (minutes, rest) ← number? 2 0 rest
    if hours ≤ 23 && minutes ≤ 59 then
      let total : Int := (hours * 60 + minutes : Nat)
      some (if negative then -total else total, rest)
    else none
  | [] => none

/-- Reads a timestamp. Second 60 is a leap second. -/
def parse? (text : String) : Option Instant := do
  let (year, cs) ← number? 4 0 text.toList
  let cs ← expect? ['-'] cs
  let (month, cs) ← number? 2 0 cs
  let cs ← expect? ['-'] cs
  let (dayOfMonth, cs) ← number? 2 0 cs
  let cs ← expect? ['T', 't', ' '] cs
  let (hour, cs) ← number? 2 0 cs
  let cs ← expect? [':'] cs
  let (minute, cs) ← number? 2 0 cs
  let cs ← expect? [':'] cs
  let (second, cs) ← number? 2 0 cs
  let (nano, cs) ← fraction? cs
  let (offset, cs) ← offset? cs
  let day : CivilDay := ⟨year, month, dayOfMonth⟩
  if cs.isEmpty && day.isValid && hour ≤ 23 && minute ≤ 59 && second ≤ 60 then
    let ofDay := hour * 3600 + minute * 60 + min second 59
    let nano := if second = 60 then nano + 1000000000 else nano
    some (Instant.minusMinutes ⟨day.toDay, ofDay, nano⟩ offset)
  else none

/-! ### Writing -/

/-- Decimal text with leading zeros up to a width. -/
def padded (width n : Nat) : String :=
  let text := natText n
  zeros (width - text.length) ++ text

/-- Years of four digits; others carry a sign. -/
def yearText (year : Int) : String :=
  if 0 ≤ year && year ≤ 9999 then padded 4 year.natAbs
  else (if year < 0 then "-" else "+") ++ padded 4 year.natAbs

/-- Writes an instant in UTC, cut to milliseconds. -/
def text (t : Instant) : String :=
  let day := CivilDay.ofDay t.day
  let second := t.second % 60 + t.nano / 1000000000
  yearText day.year ++ "-" ++ padded 2 day.month ++ "-" ++ padded 2 day.dayOfMonth ++ "T"
    ++ padded 2 (t.second / 3600) ++ ":" ++ padded 2 (t.second / 60 % 60) ++ ":"
    ++ padded 2 second ++ "." ++ padded 3 (t.nano % 1000000000 / 1000000) ++ "Z"

end TypedRecords.Timestamp
