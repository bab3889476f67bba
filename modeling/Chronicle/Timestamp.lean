import Chronicle.Text.Numeral

/-!
# Points in time

A timestamp counts nanoseconds since the epoch, so a clock may be finer than the milliseconds that
files keep. It lies in the calendar, which begins with the year -262143 and ends with the year 262142.
`millis` rounds down, also before the epoch, and `ofMillis?` is its inverse: `ofMillis?_millis` says
that going through milliseconds loses exactly the fraction of a millisecond.
-/

namespace Chronicle

/-- A point in time: nanoseconds since the start of 1970, before it negative. -/
structure Timestamp where
  /-- The count of nanoseconds. -/
  nanos : Int
  /-- The point lies in the calendar. -/
  inCalendar : -8334601228800000000000 ≤ nanos ∧ nanos ≤ 8210266876799999999999 := by omega
  deriving DecidableEq, Repr

namespace Timestamp

/-- The start of 1970. -/
def epoch : Timestamp := ⟨0, by omega⟩

/-- The point in time at a number of nanoseconds, if it lies in the calendar. -/
def ofNanos? (nanos : Int) : Option Timestamp :=
  if h : -8334601228800000000000 ≤ nanos ∧ nanos ≤ 8210266876799999999999 then some ⟨nanos, h⟩
  else none

/-- The whole milliseconds up to a point in time, rounded down. -/
def millis (t : Timestamp) : Int := t.nanos / 1000000

/-- A point in time without its fraction of a millisecond. -/
def floored (t : Timestamp) : Timestamp :=
  ⟨t.nanos / 1000000 * 1000000, by have := t.inCalendar; omega⟩

/-- The point in time at a whole millisecond, if it lies in the calendar. -/
def ofMillis? (ms : Int) : Option Timestamp := ofNanos? (ms * 1000000)

@[simp] theorem millis_floored (t : Timestamp) : t.floored.millis = t.millis := by
  simp [floored, millis]

@[simp] theorem floored_floored (t : Timestamp) : t.floored.floored = t.floored := by
  simp [floored]

theorem ofMillis?_millis (t : Timestamp) : ofMillis? t.millis = some t.floored := by
  have := t.floored.inCalendar
  simp only [floored] at this
  simp [ofMillis?, ofNanos?, millis, floored, this]

theorem millis_of_ofMillis? {ms : Int} {t : Timestamp} (h : ofMillis? ms = some t) :
    t.millis = ms ∧ t.floored = t := by
  unfold ofMillis? ofNanos? at h
  split at h
  · cases h
    simp [millis, floored]
  · cases h

/-- A day of the proleptic Gregorian calendar. -/
structure Date where
  /-- The astronomical year. -/
  year : Int
  /-- The month, from 1. -/
  month : Int
  /-- The day of the month, from 1. -/
  day : Int
  deriving DecidableEq, Repr

/-- The date a number of days after 1970-01-01. Years are counted from March in eras of 400 years,
so that the leap day ends its year and every era has the same 146097 days. -/
def Date.ofDays (days : Int) : Date :=
  let shifted := days + 719468
  let era := shifted / 146097
  let dayOfEra := shifted % 146097
  let yearOfEra := (dayOfEra - dayOfEra / 1460 + dayOfEra / 36524 - dayOfEra / 146096) / 365
  let dayOfYear := dayOfEra - (365 * yearOfEra + yearOfEra / 4 - yearOfEra / 100)
  let marchMonth := (5 * dayOfYear + 2) / 153
  let month := if marchMonth < 10 then marchMonth + 3 else marchMonth - 9
  let year := yearOfEra + era * 400 + (if month ≤ 2 then 1 else 0)
  ⟨year, month, dayOfYear - (153 * marchMonth + 2) / 5 + 1⟩

/-- The magnitude of a number, written with at least `width` digits. -/
def padded (width : Nat) (n : Int) : String := String.ofList (Numeral.zeroPadded width n.natAbs)

/-- A year: four digits, or a sign and at least four digits outside 0 to 9999. -/
def Date.yearText (year : Int) : String :=
  if 0 ≤ year ∧ year ≤ 9999 then padded 4 year
  else (if year < 0 then "-" else "+") ++ padded 4 year

/-- A point in time as calendar date and time of day in milliseconds, in universal time. -/
def text (t : Timestamp) : String :=
  let ms := t.millis
  let date := Date.ofDays (ms / 86400000)
  let inDay := ms % 86400000
  Date.yearText date.year ++ "-" ++ padded 2 date.month ++ "-" ++ padded 2 date.day ++ "T" ++
    padded 2 (inDay / 3600000) ++ ":" ++ padded 2 (inDay / 60000 % 60) ++ ":" ++
    padded 2 (inDay / 1000 % 60) ++ "." ++ padded 3 (inDay % 1000) ++ "Z"

end Timestamp

end Chronicle
