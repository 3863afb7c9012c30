/-!
# Points in time as text

A point in time is a number of milliseconds since the start of 1970, in the calendar without leap
seconds. Two texts show it: the sortable one (`sortableText`) and the one for reading
(`longText`), both at Greenwich.
-/

namespace SchemaFlow.Instant

/-- A day of the calendar and a time of the day. -/
structure Moment where
  year : Int
  month : Nat
  day : Nat
  weekday : Nat
  hour : Nat
  minute : Nat
  second : Nat
  millisecond : Nat

/-- Milliseconds of a day. -/
def dayLength : Int := 86400000

/-- The moment of a number of milliseconds. Years are counted from March, in eras of 400 years. -/
def momentOf (ms : Int) : Moment :=
  let days := ms.fdiv dayLength
  let time := (ms.fmod dayLength).toNat
  let z := days + 719468
  let era := z.fdiv 146097
  let dayOfEra := (z.fmod 146097).toNat
  let yearOfEra := (dayOfEra - dayOfEra / 1460 + dayOfEra / 36524 - dayOfEra / 146096) / 365
  let dayOfYear := dayOfEra - (365 * yearOfEra + yearOfEra / 4 - yearOfEra / 100)
  let shifted := (5 * dayOfYear + 2) / 153
  let month := if shifted < 10 then shifted + 3 else shifted - 9
  { year := era * 400 + yearOfEra + (if month ≤ 2 then 1 else 0)
    month := month
    day := dayOfYear - (153 * shifted + 2) / 5 + 1
    weekday := ((days + 4).fmod 7).toNat
    hour := time / 3600000
    minute := time / 60000 % 60
    second := time / 1000 % 60
    millisecond := time % 1000 }

/-- A number with leading zeros. -/
def padded (width n : Nat) : String :=
  let ds := Nat.toDigits 10 n
  String.ofList (List.replicate (width - ds.length) '0' ++ ds)

/-- The time of the day, without its milliseconds. -/
def clockText (m : Moment) : String :=
  padded 2 m.hour ++ ":" ++ padded 2 m.minute ++ ":" ++ padded 2 m.second

/-- Year, month and day from left to right; years of more or less than four digits are signed. -/
def sortableText (ms : Int) : String :=
  let m := momentOf ms
  let year :=
    if 0 ≤ m.year ∧ m.year ≤ 9999 then padded 4 m.year.toNat
    else (if m.year < 0 then "-" else "+") ++ padded 6 m.year.natAbs
  year ++ "-" ++ padded 2 m.month ++ "-" ++ padded 2 m.day ++ "T" ++ clockText m ++ "." ++
    padded 3 m.millisecond ++ "Z"

/-- The names of the days and of the months. -/
def dayNames : List String := ["Sun", "Mon", "Tue", "Wed", "Thu", "Fri", "Sat"]

/-- The names of the months. -/
def monthNames : List String :=
  ["Jan", "Feb", "Mar", "Apr", "May", "Jun", "Jul", "Aug", "Sep", "Oct", "Nov", "Dec"]

/-- Day, date, time and zone. -/
def longText (ms : Int) : String :=
  let m := momentOf ms
  let year := (if m.year < 0 then "-" else "") ++ padded 4 m.year.natAbs
  (dayNames.getD m.weekday "") ++ " " ++ (monthNames.getD (m.month - 1) "") ++ " " ++
    padded 2 m.day ++ " " ++ year ++ " " ++ clockText m ++
    " GMT+0000 (Coordinated Universal Time)"

/-- The furthest point in time on either side. -/
def furthest : Int := 8640000000000000

end SchemaFlow.Instant
