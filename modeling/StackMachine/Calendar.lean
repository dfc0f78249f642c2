/-!
# Calendar

The Gregorian date of a day number.  Years are counted from March, so that the leap day is the last
day of its year, and days are grouped into eras of 400 years, each of the same length.  Within an
era all counts are small natural numbers.

Day numbers are 64-bit words: day 0 is 1970-01-01, and the upper half of the words stands for the
days before it.  The year is kept as a 32-bit word.
-/

namespace StackMachine.Calendar

structure Date where
  /-- The year modulo 2³². -/
  year : UInt32
  /-- The month, from 1 to 12. -/
  month : Nat
  /-- The day of the month, from 1. -/
  day : Nat
  deriving DecidableEq, Repr

/-- Days of an era of 400 years. -/
def daysPerEra : Nat := 146097

/-- Days from 0000-03-01, the start of an era, to 1970-01-01. -/
def epochOffset : Nat := 719468

/-- The year within its era of a day within the era: the leap days that have passed, one in four
years, none in a hundred and one in four hundred, are taken out before dividing. -/
def yearOfEra (dayOfEra : Nat) : Nat :=
  (dayOfEra - dayOfEra / 1460 + dayOfEra / 36524 - dayOfEra / 146096) / 365

/-- The day of an era on which a year within it starts. -/
def yearStart (yearOfEra : Nat) : Nat := 365 * yearOfEra + yearOfEra / 4 - yearOfEra / 100

/-- The month, counted from March as 0, of a day of a year that starts in March. -/
def marchMonth (dayOfYear : Nat) : Nat := (5 * dayOfYear + 2) / 153

/-- The day of the year on which a month counted from March starts. -/
def monthStart (marchMonth : Nat) : Nat := (153 * marchMonth + 2) / 5

/-- The month of the calendar for a month counted from March. -/
def calendarMonth (marchMonth : Nat) : Nat :=
  if marchMonth < 10 then marchMonth + 3 else marchMonth - 9

/-- The date of a day within an era. -/
def dateOfEra (era : Int) (dayOfEra : Nat) : Date :=
  let year := yearOfEra dayOfEra
  let dayOfYear := dayOfEra - yearStart year
  let month := calendarMonth (marchMonth dayOfYear)
  -- January and February end the year that started the March before.
  let calendarYear := year + era * 400 + if month ≤ 2 then 1 else 0
  { year := UInt32.ofNat (calendarYear % UInt32.size).toNat
    month
    day := dayOfYear - monthStart (marchMonth dayOfYear) + 1 }

/-- The number of days that a word stands for, counted from 0000-03-01 in 64-bit signed words. -/
def eraDays (days : UInt64) : Int := Int.bmod (days.toNat + epochOffset) UInt64.size

/-- The date of a day number. -/
def dateOfDays (days : UInt64) : Date :=
  let count := eraDays days
  dateOfEra (count / daysPerEra) (count % daysPerEra).toNat

end StackMachine.Calendar
