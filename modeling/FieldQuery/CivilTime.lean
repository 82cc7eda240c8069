/-!
# Civil time and unix seconds

Dates of the Gregorian calendar, carried back before its introduction and before year one, where
the year before one is year zero. A civil time is a date, a time of day and the offset of its zone
east of Greenwich. Its unix seconds count whole seconds since the start of 1970 at offset zero; a
fraction of a second is dropped, so the count is the floor of the instant also before 1970.
-/

namespace FieldQuery

structure Date where
  year : Int
  month : Nat
  day : Nat
  deriving DecidableEq, Repr

namespace Date

/-- Every fourth year is a leap year, save the centuries that four hundred does not divide. -/
def isLeap (year : Int) : Bool := year % 4 = 0 && (year % 100 ≠ 0 || year % 400 = 0)

def monthLength (year : Int) (month : Nat) : Nat :=
  if month = 2 then (if isLeap year then 29 else 28)
  else if month = 4 ∨ month = 6 ∨ month = 9 ∨ month = 11 then 30
  else 31

def Valid (d : Date) : Prop :=
  1 ≤ d.month ∧ d.month ≤ 12 ∧ 1 ≤ d.day ∧ d.day ≤ monthLength d.year d.month

instance (d : Date) : Decidable d.Valid := by unfold Valid; infer_instance

/-- Days from the start of year one to the start of a year; negative for earlier years. -/
def daysBeforeYear (year : Int) : Int :=
  365 * (year - 1) + (year - 1) / 4 - (year - 1) / 100 + (year - 1) / 400

/-- Days of the year before the month that follows the given number of months. -/
def daysBeforeMonth (year : Int) : Nat → Nat
  | 0 => 0
  | months + 1 => daysBeforeMonth year months + monthLength year (months + 1)

/-- Days since the first of January 1970. -/
def dayNumber (d : Date) : Int :=
  daysBeforeYear d.year + daysBeforeMonth d.year (d.month - 1) + d.day - 1 - daysBeforeYear 1970

/-- The next day of the calendar. -/
def next (d : Date) : Date :=
  if d.day < monthLength d.year d.month then { d with day := d.day + 1 }
  else if d.month < 12 then { d with month := d.month + 1, day := 1 }
  else ⟨d.year + 1, 1, 1⟩

end Date

/-- A second may be the leap second, whose nanoseconds run past one second. -/
structure CivilTime where
  date : Date
  hour : Nat
  minute : Nat
  second : Nat
  nanos : Nat
  offset : Int
  deriving DecidableEq, Repr

namespace CivilTime

def secondOfDay (t : CivilTime) : Nat := 3600 * t.hour + 60 * t.minute + t.second

def unixSeconds (t : CivilTime) : Int :=
  86400 * t.date.dayNumber + t.secondOfDay - t.offset

/-- The days of which an instant may be part, at offset zero. -/
def firstDay : Date := ⟨-262143, 1, 1⟩
def lastDay : Date := ⟨262142, 12, 31⟩

/-- A time of an existing day, less than a day away from offset zero, that lies within the admitted
days both where it is told and at offset zero. -/
def Valid (t : CivilTime) : Prop :=
  t.date.Valid ∧ firstDay.year ≤ t.date.year ∧ t.date.year ≤ lastDay.year ∧
  t.hour < 24 ∧ t.minute < 60 ∧ t.second < 60 ∧
  (t.nanos < 1000000000 ∨ t.second = 59 ∧ t.nanos < 2000000000) ∧
  -86400 < t.offset ∧ t.offset < 86400 ∧
  86400 * firstDay.dayNumber ≤ t.unixSeconds ∧ t.unixSeconds < 86400 * (lastDay.dayNumber + 1)

instance (t : CivilTime) : Decidable t.Valid := by unfold Valid; infer_instance

end CivilTime

end FieldQuery
