/-!
# ProbeAtlas — points in time

An instant is a number of seconds after the start of 1970, or before it if negative; every day has 86400
of them. `Instant.ofFields` reads the calendar: a month, day, hour, minute or second beyond its range
runs over into the next larger unit. `Instant.text` writes the calendar.
-/

namespace ProbeAtlas.Yaml

/-- A point in time, to the second. -/
structure Instant where
  seconds : Int
deriving DecidableEq, Repr

namespace Instant

def secondsOfDay : Int := 86400

/-- A day of the calendar with the year beginning in March, so that a leap day is its last day: `months`
have passed since March of `year`. The result counts days from the start of 1970. -/
def dayOfMarchYear (year months : Int) : Int :=
  365 * year + year / 4 - year / 100 + year / 400 + (153 * months + 2) / 5 - 719468

/-- The first day of a month; months count from one and run over into other years. -/
def dayOfMonth (year month : Int) : Int :=
  let months := 12 * year + month - 3
  dayOfMarchYear (months / 12) (months % 12)

/-- The instant at which a clock shows the given calendar. Years of one or two digits lie in the twentieth
century. -/
def ofFields (year month day hour minute second : Nat) : Instant :=
  let fullYear := if year < 100 then 1900 + year else year
  let days := dayOfMonth fullYear month + (day : Int) - 1
  ⟨days * secondsOfDay + hour * 3600 + minute * 60 + second⟩

/-- The same clock reading in a zone that is ahead by the given number of seconds. -/
def ahead (t : Instant) (offset : Int) : Instant :=
  ⟨t.seconds - offset⟩

/-- Year, month and day of a day counted from the start of 1970. -/
def calendar (days : Int) : Int × Int × Int :=
  let days := days + 719468
  let era := days / 146097
  let dayOfEra := days % 146097
  let yearOfEra := (dayOfEra - dayOfEra / 1460 + dayOfEra / 36524 - dayOfEra / 146096) / 365
  let dayOfYear := dayOfEra - (365 * yearOfEra + yearOfEra / 4 - yearOfEra / 100)
  let months := (5 * dayOfYear + 2) / 153
  let day := dayOfYear - (153 * months + 2) / 5 + 1
  let month := if months < 10 then months + 3 else months - 9
  (yearOfEra + 400 * era + (if month ≤ 2 then 1 else 0), month, day)

def monthNames : List String :=
  ["Jan", "Feb", "Mar", "Apr", "May", "Jun", "Jul", "Aug", "Sep", "Oct", "Nov", "Dec"]

/-- The names of the days of the week, from the first day of 1970 on. -/
def dayNames : List String :=
  ["Thu", "Fri", "Sat", "Sun", "Mon", "Tue", "Wed"]

/-- A number that is not negative, with at least `width` digits. -/
def padded (width : Nat) (n : Int) : String :=
  String.ofList ((Nat.toDigits 10 n.toNat).leftpad width '0')

/-- Day of the week, date, time of day and zone. -/
def text (t : Instant) : String :=
  let days := t.seconds / secondsOfDay
  let clock := t.seconds % secondsOfDay
  let (year, month, day) := calendar days
  let date := [dayNames.getD (days % 7).toNat "", monthNames.getD (month - 1).toNat "", padded 2 day,
    padded 4 year]
  let time := [padded 2 (clock / 3600), padded 2 (clock / 60 % 60), padded 2 (clock % 60)]
  " ".intercalate date ++ " " ++ ":".intercalate time ++ " GMT+0000 (Coordinated Universal Time)"

end Instant

end ProbeAtlas.Yaml
