/-!
# Points in time

Reports name the point in time at which they were made, to the second, in the form
`Mon Oct  9 14:02:11 2026`. `Timestamp.ofSeconds` finds the day from the seconds since the start of
1970, by the calendar in which a year divisible by four is a leap year, a century only if it is
divisible by four hundred.
-/

namespace RingStore

/-- A point in time. -/
structure Timestamp where
  /-- The day of the week, from Sunday on. -/
  weekday : Nat
  /-- The month, from January on. -/
  month : Nat
  /-- The day of the month, from 1 on. -/
  day : Nat
  hour : Nat
  minute : Nat
  second : Nat
  year : Nat
  deriving DecidableEq, Repr

namespace Timestamp

/-- The names of the days of the week. -/
def weekdays : List String := ["Sun", "Mon", "Tue", "Wed", "Thu", "Fri", "Sat"]

/-- The names of the months. -/
def months : List String :=
  ["Jan", "Feb", "Mar", "Apr", "May", "Jun", "Jul", "Aug", "Sep", "Oct", "Nov", "Dec"]

/-- A number in at least `width` places, with the given character in front. -/
def padded (c : Char) (width n : Nat) : String :=
  let digits := (toString n).toList
  String.ofList (List.replicate (width - digits.length) c ++ digits)

/-- The point in time as reports show it. -/
def text (t : Timestamp) : String :=
  let clock := ":".intercalate ([t.hour, t.minute, t.second].map (padded '0' 2))
  " ".intercalate [weekdays.getD t.weekday "", months.getD t.month "", padded ' ' 2 t.day, clock,
    toString t.year]

/-- A year has a day more. -/
def isLeap (year : Nat) : Bool := year % 4 = 0 && (year % 100 ≠ 0 || year % 400 = 0)

/-- The lengths of the months of a year. -/
def monthLengths (year : Nat) : List Nat :=
  [31, if isLeap year then 29 else 28, 31, 30, 31, 30, 31, 31, 30, 31, 30, 31]

/-- The year of a day, and the day within it, with the days counted from the start of `year`. -/
def yearOf : Nat → Nat → Nat → Nat × Nat
  | 0, year, days => (year, days)
  | steps + 1, year, days =>
    let length := if isLeap year then 366 else 365
    if days < length then (year, days) else yearOf steps (year + 1) (days - length)

/-- The month of a day within a year, and the day within it, with the months from `month` on. -/
def monthOf (month : Nat) : List Nat → Nat → Nat × Nat
  | [], days => (month, days)
  | length :: rest, days =>
    if days < length then (month, days) else monthOf (month + 1) rest (days - length)

/-- The point in time a number of seconds after the start of 1970. -/
def ofSeconds (seconds : Nat) : Timestamp :=
  let days := seconds / 86400
  let rest := seconds % 86400
  let (year, inYear) := yearOf (days / 365 + 1) 1970 days
  let (month, inMonth) := monthOf 0 (monthLengths year) inYear
  { weekday := (days + 4) % 7, month, day := inMonth + 1, hour := rest / 3600,
    minute := rest / 60 % 60, second := rest % 60, year }

/-- Reads a number of digits. -/
def number? (cs : List Char) : Option Nat :=
  if cs ≠ [] ∧ cs.all Char.isDigit then some (cs.foldl (fun n c => n * 10 + (c.toNat - 48)) 0)
  else none

/-- Reads a point in time in the form that reports show, and in no other. -/
def ofText? (s : String) : Option Timestamp := do
  let cs := s.toList
  let part (start size : Nat) : List Char := (cs.drop start).take size
  let weekday ← weekdays.findIdx? (· == String.ofList (part 0 3))
  let month ← months.findIdx? (· == String.ofList (part 4 3))
  let day ← number? ((part 8 2).dropWhile (· == ' '))
  let t : Timestamp := { weekday, month, day, hour := ← number? (part 11 2),
                         minute := ← number? (part 14 2), second := ← number? (part 17 2),
                         year := ← number? (part 20 4) }
  if t.text = s then return t else none

end Timestamp

end RingStore
