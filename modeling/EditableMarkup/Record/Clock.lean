/-!
# Clocks

A clock counts microseconds since the start of 1970 and moves on with every
reading.  A reading is a date and a time of day with milliseconds, in universal
time.
-/

namespace EditableMarkup

/-- A clock: what it shows now, and how far it moves with every reading, in microseconds. -/
structure Clock where
  now : Int
  tick : Int

/-- A day of the calendar. -/
structure Date where
  year : Int
  month : Int
  day : Int

namespace Date

/-- The day with a given number of days since the start of 1970. The count is shifted to years that
start in March, of which 400 have 146097 days. -/
def ofDays (days : Int) : Date :=
  let shifted := days + 719468
  let era := shifted.fdiv 146097
  let dayOfEra := shifted - era * 146097
  let yearOfEra := (dayOfEra - dayOfEra / 1460 + dayOfEra / 36524 - dayOfEra / 146096) / 365
  let dayOfYear := dayOfEra - (365 * yearOfEra + yearOfEra / 4 - yearOfEra / 100)
  let shiftedMonth := (5 * dayOfYear + 2) / 153
  let day := dayOfYear - (153 * shiftedMonth + 2) / 5 + 1
  let month := if shiftedMonth < 10 then shiftedMonth + 3 else shiftedMonth - 9
  let year := yearOfEra + era * 400 + (if month ≤ 2 then 1 else 0)
  { year, month, day }

end Date

/-- A number in decimal, filled with zeros to a given width. -/
def padded (width : Nat) (n : Int) : String :=
  let digits := Nat.toDigits 10 n.toNat
  String.ofList (List.replicate (width - digits.length) '0' ++ digits)

/-- The text of a time given in microseconds since the start of 1970; milliseconds are rounded down.
-/
def timeText (microseconds : Int) : String :=
  let milliseconds := microseconds.fdiv 1000
  let seconds := milliseconds.fdiv 1000
  let days := seconds.fdiv 86400
  let date := Date.ofDays days
  let ofDay := seconds - days * 86400
  padded 4 date.year ++ "-" ++ padded 2 date.month ++ "-" ++ padded 2 date.day ++ "T" ++
    padded 2 (ofDay / 3600) ++ ":" ++ padded 2 (ofDay / 60 % 60) ++ ":" ++
    padded 2 (ofDay % 60) ++ "." ++ padded 3 (milliseconds - seconds * 1000) ++ "Z"

namespace Clock

/-- Read a clock: the text of its time, and the clock behind the reading. -/
def read (clock : Clock) : String × Clock :=
  (timeText clock.now, { clock with now := clock.now + clock.tick })

end Clock

end EditableMarkup
