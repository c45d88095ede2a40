/-!
Dates and times, as a YAML document may hold them.

A moment is a day of the calendar that is followed backwards as far as the year 1, with a time of day
or without one. A time of day may say how far its clock is ahead of Greenwich, by less than a day. A
moment has a text, and a spelling that shows how to make it.
-/

set_option autoImplicit false

namespace SimpleBinary

/-- A time of day. The zone is given in minutes ahead of Greenwich. -/
structure TimeOfDay where
  hour : Nat
  minute : Nat
  second : Nat
  micro : Nat := 0
  zone : Option Int := none
  deriving DecidableEq, Repr

/-- A date with or without a time of day. -/
structure Moment where
  year : Nat
  month : Nat
  day : Nat
  time : Option TimeOfDay := none
  deriving DecidableEq, Repr

namespace Moment

/-- What keeps numbers from being a moment. -/
inductive Problem
  | year (n : Nat)
  | month
  | day
  | hour
  | minute
  | second
  | zone (minutes : Int)
  deriving DecidableEq, Repr

/-- Whether a year has a leap day. -/
def isLeap (year : Nat) : Bool :=
  year % 4 = 0 && (year % 100 ≠ 0 || year % 400 = 0)

/-- The number of days in a month. -/
def daysIn (year month : Nat) : Nat :=
  if month = 2 then if isLeap year then 29 else 28
  else if month = 4 || month = 6 || month = 9 || month = 11 then 30
  else 31

/-- The first problem of a time of day, its zone left aside. -/
def timeProblem? (t : TimeOfDay) : Option Problem :=
  if 23 < t.hour then some .hour
  else if 59 < t.minute then some .minute
  else if 59 < t.second then some .second
  else none

/-- The first problem of a date. -/
def dateProblem? (m : Moment) : Option Problem :=
  if m.year = 0 || 9999 < m.year then some (.year m.year)
  else if m.month = 0 || 12 < m.month then some .month
  else if m.day = 0 || daysIn m.year m.month < m.day then some .day
  else none

/-- The problem of the zone of a moment. -/
def zoneProblem? (m : Moment) : Option Problem :=
  match m.time.bind TimeOfDay.zone with
  | some minutes => if 1440 ≤ minutes.natAbs then some (.zone minutes) else none
  | none => none

/-- The problem of a moment that is named, if it has any: that of its zone, then those of the date,
then those of the time. -/
def problem? (m : Moment) : Option Problem :=
  m.zoneProblem? <|> m.dateProblem? <|> m.time.bind timeProblem?

/-- The number of days from the first day of the year 1 to that of a moment. -/
def dayNumber (m : Moment) : Nat :=
  let years := m.year - 1
  let months := (List.range (m.month - 1)).map fun k => daysIn m.year (k + 1)
  years * 365 + years / 4 - years / 100 + years / 400 + months.foldl (· + ·) 0 + (m.day - 1)

/-- The millionths of a second from the beginning of the year 1 at Greenwich to a moment whose zone
is known. -/
def instant? (m : Moment) : Option Int := do
  let t ← m.time
  let minutes ← t.zone
  let seconds : Int := (m.dayNumber * 24 + t.hour) * 3600 + t.minute * 60 + t.second
  return (seconds - minutes * 60) * 1000000 + t.micro

/-- Whether two moments are one: the same instant if both zones are known, and otherwise the same day
and the same time. -/
def isSame (m n : Moment) : Bool :=
  match m.instant?, n.instant? with
  | some a, some b => a == b
  | none, none => m == n
  | _, _ => false

/-- A number with zeros in front, up to a width. -/
def padded (width n : Nat) : String :=
  let ds := Nat.toDigits 10 n
  String.ofList (List.replicate (width - ds.length) '0' ++ ds)

/-- The text of a zone. -/
def zoneText (minutes : Int) : String :=
  (if minutes < 0 then "-" else "+") ++ padded 2 (minutes.natAbs / 60) ++ ":" ++
    padded 2 (minutes.natAbs % 60)

/-- The text of a time of day. Millionths of a second are written where there are any. -/
def timeText (t : TimeOfDay) : String :=
  padded 2 t.hour ++ ":" ++ padded 2 t.minute ++ ":" ++ padded 2 t.second ++
    (if t.micro = 0 then "" else "." ++ padded 6 t.micro) ++
    (match t.zone with
      | some minutes => zoneText minutes
      | none => "")

/-- The text of a moment. -/
def text (m : Moment) : String :=
  let date := padded 4 m.year ++ "-" ++ padded 2 m.month ++ "-" ++ padded 2 m.day
  match m.time with
  | some t => date ++ " " ++ timeText t
  | none => date

/-- The spelling of a span of minutes, as whole days and the seconds after them. -/
def spanSpelling (minutes : Int) : String :=
  let days := Int.fdiv minutes 1440
  let seconds := Int.fmod minutes 1440 * 60
  let parts := (if days = 0 then [] else [s!"days={days}"]) ++
    (if seconds = 0 then [] else [s!"seconds={seconds}"])
  "datetime.timedelta(" ++ (if parts.isEmpty then "0" else ", ".intercalate parts) ++ ")"

/-- The spelling of a zone. -/
def zoneSpelling (minutes : Int) : String :=
  if minutes = 0 then "datetime.timezone.utc"
  else "datetime.timezone(" ++ spanSpelling minutes ++ ")"

/-- The numbers of a time of day that are spelled out: no seconds or millionths where all from there
on are zero. -/
def timeParts (t : TimeOfDay) : List Nat :=
  [t.hour, t.minute] ++
    (if t.micro ≠ 0 then [t.second, t.micro] else if t.second ≠ 0 then [t.second] else [])

/-- The spelling of a moment. -/
def spelling (m : Moment) : String :=
  let date := [m.year, m.month, m.day]
  match m.time with
  | some t =>
    let zone := match t.zone with
      | some minutes => ["tzinfo=" ++ zoneSpelling minutes]
      | none => []
    "datetime.datetime(" ++ ", ".intercalate ((date ++ timeParts t).map toString ++ zone) ++ ")"
  | none => "datetime.date(" ++ ", ".intercalate (date.map toString) ++ ")"

/-- The message of a problem. -/
def Problem.message : Problem → String
  | .year n => s!"year {n} is out of range"
  | .month => "month must be in 1..12"
  | .day => "day is out of range for month"
  | .hour => "hour must be in 0..23"
  | .minute => "minute must be in 0..59"
  | .second => "second must be in 0..59"
  | .zone minutes =>
    "offset must be a timedelta strictly between -timedelta(hours=24) and timedelta(hours=24), not " ++
      spanSpelling minutes ++ "."

end Moment

end SimpleBinary
