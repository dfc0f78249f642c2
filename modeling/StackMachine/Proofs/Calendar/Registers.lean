import StackMachine.Proofs.Calendar.Conversion

/-!
# Dates in registers

A date is worked out in registers of 32 bits for natural numbers and of 64 bits for whole numbers.
This file goes through the same calculation with a test behind each sum, product and difference, and
refuses the first one that its register cannot hold.  Only the very first sum is ever refused, for
the last days that a word can stand for, so that the values of the calculation are those of whole
numbers without bounds.  The date of every other day is the one that the calendar gives it.

Quotients and remainders are not tested, as they are no greater than what is divided.
-/

namespace StackMachine.Calendar

/-- A natural number, if it fits into 32 bits. -/
def natural? (value : Nat) : Option Nat := if value < 2 ^ 32 then some value else none

/-- A difference of natural numbers, if it is one. -/
def difference? (value taken : Nat) : Option Nat :=
  if taken ≤ value then some (value - taken) else none

/-- A whole number, if it fits into 64 bits with a sign. -/
def whole? (value : Int) : Option Int :=
  if -2 ^ 63 ≤ value ∧ value < 2 ^ 63 then some value else none

def yearOfEra? (dayOfEra : Nat) : Option Nat := do
  let taken ← difference? dayOfEra (dayOfEra / 1460)
  let given ← natural? (taken + dayOfEra / 36524)
  let counted ← difference? given (dayOfEra / 146096)
  return counted / 365

def yearStart? (year : Nat) : Option Nat := do
  let years ← natural? (365 * year)
  let given ← natural? (years + year / 4)
  difference? given (year / 100)

def marchMonth? (dayOfYear : Nat) : Option Nat := do
  let scaled ← natural? (5 * dayOfYear)
  let shifted ← natural? (scaled + 2)
  return shifted / 153

def monthStart? (month : Nat) : Option Nat := do
  let scaled ← natural? (153 * month)
  let shifted ← natural? (scaled + 2)
  return shifted / 5

def calendarMonth? (month : Nat) : Option Nat :=
  if month < 10 then natural? (month + 3) else difference? month 9

def dateOfEra? (era : Int) (dayOfEra : Nat) : Option Date := do
  let yearWithin ← yearOfEra? dayOfEra
  let before ← whole? (era * 400)
  let marchYear ← whole? (yearWithin + before)
  let start ← yearStart? yearWithin
  let dayOfYear ← difference? dayOfEra start
  let fromMarch ← marchMonth? dayOfYear
  let first ← monthStart? fromMarch
  let passed ← difference? dayOfYear first
  let day ← natural? (passed + 1)
  let month ← calendarMonth? fromMarch
  let year ← if month ≤ 2 then whole? (marchYear + 1) else some marchYear
  return { year := UInt32.ofNat (year % UInt32.size).toNat, month, day }

/-- The date of a day number, if all the values on the way to it fit into their registers. -/
def dateOfDays? (days : UInt64) : Option Date := do
  let count ← whole? (days.toInt64.toInt + epochOffset)
  let dayOfEra ← natural? (count % daysPerEra).toNat
  dateOfEra? (count / daysPerEra) dayOfEra

section Registers

variable {value taken : Nat}

theorem natural?_eq (fits : value < 2 ^ 32) : natural? value = some value := if_pos fits

theorem difference?_eq (enough : taken ≤ value) : difference? value taken = some (value - taken) :=
  if_pos enough

theorem whole?_eq {value : Int} (low : -2 ^ 63 ≤ value) (high : value < 2 ^ 63) :
    whole? value = some value :=
  if_pos ⟨low, high⟩

end Registers

section Steps

variable {dayOfEra year dayOfYear month : Nat}

theorem yearOfEra?_eq (inside : dayOfEra < daysPerEra) :
    yearOfEra? dayOfEra = some (yearOfEra dayOfEra) := by
  unfold daysPerEra at inside
  have first : dayOfEra / 1460 ≤ dayOfEra := Nat.div_le_self _ _
  have second : dayOfEra - dayOfEra / 1460 + dayOfEra / 36524 < 2 ^ 32 := by omega
  have third : dayOfEra / 146096 ≤ dayOfEra - dayOfEra / 1460 + dayOfEra / 36524 := by omega
  simp only [yearOfEra?, difference?_eq first, natural?_eq second, difference?_eq third,
    Option.bind_eq_bind, Option.bind_some]
  rfl

theorem yearStart?_eq (inside : year < 400) : yearStart? year = some (yearStart year) := by
  have first : 365 * year < 2 ^ 32 := by omega
  have second : 365 * year + year / 4 < 2 ^ 32 := by omega
  have third : year / 100 ≤ 365 * year + year / 4 := by omega
  simp only [yearStart?, natural?_eq first, natural?_eq second, difference?_eq third,
    Option.bind_eq_bind, Option.bind_some]
  rfl

theorem marchMonth?_eq (inside : dayOfYear < 366) :
    marchMonth? dayOfYear = some (marchMonth dayOfYear) := by
  have first : 5 * dayOfYear < 2 ^ 32 := by omega
  have second : 5 * dayOfYear + 2 < 2 ^ 32 := by omega
  simp only [marchMonth?, natural?_eq first, natural?_eq second, Option.bind_eq_bind,
    Option.bind_some]
  rfl

theorem monthStart?_eq (inside : month < 12) : monthStart? month = some (monthStart month) := by
  have first : 153 * month < 2 ^ 32 := by omega
  have second : 153 * month + 2 < 2 ^ 32 := by omega
  simp only [monthStart?, natural?_eq first, natural?_eq second, Option.bind_eq_bind,
    Option.bind_some]
  rfl

theorem calendarMonth?_eq (inside : month < 12) :
    calendarMonth? month = some (calendarMonth month) := by
  unfold calendarMonth? calendarMonth
  split
  · exact natural?_eq (by omega)
  · exact difference?_eq (by omega)

/-- Of an era that is not too far away all days have their dates. -/
theorem dateOfEra?_eq {era : Int} (inside : dayOfEra < daysPerEra) (low : -2 ^ 53 ≤ era)
    (high : era < 2 ^ 53) : dateOfEra? era dayOfEra = some (dateOfEra era dayOfEra) := by
  have year := yearOfEra_lt inside
  have started := yearStart_yearOfEra_le inside
  have bound := dayOfYear_lt_leap inside
  have month := marchMonth_lt bound
  have first := monthStart_marchMonth_le (dayOfEra - yearStart (yearOfEra dayOfEra))
  have before : whole? (era * 400) = some (era * 400) := whole?_eq (by omega) (by omega)
  have marchYear : whole? (yearOfEra dayOfEra + era * 400) =
      some (yearOfEra dayOfEra + era * 400) := whole?_eq (by omega) (by omega)
  have follows : whole? (yearOfEra dayOfEra + era * 400 + 1) =
      some (yearOfEra dayOfEra + era * 400 + 1) := whole?_eq (by omega) (by omega)
  have day : natural? (dayOfEra - yearStart (yearOfEra dayOfEra) -
        monthStart (marchMonth (dayOfEra - yearStart (yearOfEra dayOfEra))) + 1) =
      some (dayOfEra - yearStart (yearOfEra dayOfEra) -
        monthStart (marchMonth (dayOfEra - yearStart (yearOfEra dayOfEra))) + 1) :=
    natural?_eq (by omega)
  simp only [dateOfEra?, yearOfEra?_eq inside, before, marchYear, yearStart?_eq year,
    difference?_eq started, marchMonth?_eq bound, monthStart?_eq month, difference?_eq first, day,
    calendarMonth?_eq month, follows, Option.bind_eq_bind, Option.bind_some]
  unfold dateOfEra
  split
  · rename_i winter
    simp only [if_pos winter]
    rfl
  · rename_i summer
    simp only [if_neg summer, add_zero]
    rfl

end Steps

section Days

variable {days : UInt64}

theorem cast_epochOffset : (epochOffset : Int) = 719468 := rfl

theorem cast_daysPerEra : (daysPerEra : Int) = 146097 := rfl

/-- The upper half of the words stands for the days before the first one. -/
theorem toInt_toInt64_cases (days : UInt64) :
    days.toNat < 2 ^ 63 ∧ days.toInt64.toInt = days.toNat ∨
      2 ^ 63 ≤ days.toNat ∧ days.toInt64.toInt = days.toNat - 2 ^ 64 := by
  have size := days.toNat_lt
  have read : days.toInt64.toInt = (days.toNat : Int).bmod (2 ^ 64) := BitVec.toInt_eq_toNat_bmod _
  rw [read, Int.bmod_def]
  split
  all_goals omega

theorem toInt_toInt64_succ (bound : days.toInt64.toInt < 2 ^ 63 - 1) :
    (days + 1).toInt64.toInt = days.toInt64.toInt + 1 := by
  have size := days.toNat_lt
  have one : (1 : UInt64).toNat = 1 := rfl
  have sum := UInt64.toNat_add days 1
  rw [one] at sum
  have here := toInt_toInt64_cases days
  have there := toInt_toInt64_cases (days + 1)
  omega

theorem eraDays_eq (bound : days.toInt64.toInt ≤ 2 ^ 63 - 1 - epochOffset) :
    eraDays days = days.toInt64.toInt + epochOffset := by
  have size := days.toNat_lt
  have read := toInt_toInt64_cases days
  have offset := cast_epochOffset
  unfold eraDays
  simp only [Int.bmod_def, UInt64.size]
  split
  all_goals omega

theorem dateOfDays?_of_whole? {count : Int}
    (fits : whole? (days.toInt64.toInt + epochOffset) = some count) :
    dateOfDays? days = (natural? (count % daysPerEra).toNat).bind
      (dateOfEra? (count / daysPerEra)) := by
  simp only [dateOfDays?, fits, Option.bind_eq_bind, Option.bind_some]

theorem emod_daysPerEra_lt (count : Int) : (count % daysPerEra).toNat < daysPerEra := by
  have length := cast_daysPerEra
  rw [length]
  omega

theorem dateOfDays?_of_le (bound : days.toInt64.toInt ≤ 2 ^ 63 - 1 - epochOffset) :
    dateOfDays? days = some (dateOfDays days) := by
  have read := toInt_toInt64_cases days
  have size := days.toNat_lt
  have offset := cast_epochOffset
  have length := cast_daysPerEra
  have same := eraDays_eq bound
  have fits : whole? (days.toInt64.toInt + epochOffset) = some (eraDays days) := by
    rw [same]
    exact whole?_eq (by omega) (by omega)
  have inside := emod_daysPerEra_lt (eraDays days)
  have narrow : natural? (eraDays days % daysPerEra).toNat =
      some (eraDays days % daysPerEra).toNat := natural?_eq (by omega)
  have near : -2 ^ 53 ≤ eraDays days / daysPerEra ∧ eraDays days / daysPerEra < 2 ^ 53 := by
    rw [length]
    omega
  rw [dateOfDays?_of_whole? fits, narrow, Option.bind_some]
  exact dateOfEra?_eq inside near.1 near.2

theorem dateOfDays?_of_lt (beyond : 2 ^ 63 - 1 - epochOffset < days.toInt64.toInt) :
    dateOfDays? days = none := by
  have offset := cast_epochOffset
  have large : whole? (days.toInt64.toInt + epochOffset) = none := if_neg (by omega)
  simp only [dateOfDays?, large, Option.bind_eq_bind, Option.bind_none]

/-- The date of a day number is the one that the calendar gives this day. -/
theorem exists_date (bound : days.toInt64.toInt ≤ 2 ^ 63 - 1 - epochOffset) :
    ∃ date : CivilDate, date.Valid ∧ date.dayNumber = days.toInt64.toInt ∧
      (dateOfDays days).Shows date := by
  have inside := emod_daysPerEra_lt (eraDays days)
  refine ⟨_, valid_civilOfEra (eraDays days / daysPerEra) inside, ?_, dateOfEra_shows _ _⟩
  have same := eraDays_eq bound
  rw [dayNumber_civilOfEra _ inside, cast_daysPerEra]
  omega

/-- Up to the last day whose count from the start of the eras fits into a register, every value on
the way to a date fits as well.  The date is the one that many days after 1970-01-01 by the rules of
the calendar, or before for a word of the upper half, with its year cut to a word.  The next day
number shows the next date. -/
theorem dates_are_gregorian (days : UInt64) :
    (dateOfDays? days = some (dateOfDays days) ↔
      days.toInt64.toInt ≤ 2 ^ 63 - 1 - 719468) ∧
    (days.toInt64.toInt ≤ 2 ^ 63 - 1 - 719468 →
      ∃ date : CivilDate, date.Valid ∧ date.dayNumber = days.toInt64.toInt ∧
        (dateOfDays days).Shows date ∧
        (days.toInt64.toInt + 1 ≤ 2 ^ 63 - 1 - 719468 →
          (dateOfDays (days + 1)).Shows date.next)) := by
  constructor
  · constructor
    · intro fits
      by_contra beyond
      rw [dateOfDays?_of_lt (not_le.mp beyond)] at fits
      contradiction
    · exact dateOfDays?_of_le
  · intro bound
    rcases exists_date bound with ⟨date, valid, number, shows⟩
    refine ⟨date, valid, number, shows, ?_⟩
    intro further
    have follows : (days + 1).toInt64.toInt = days.toInt64.toInt + 1 :=
      toInt_toInt64_succ (by omega)
    rw [← follows] at further
    rcases exists_date further with ⟨later, laterValid, laterNumber, laterShows⟩
    -- The calendar has no other date with this number than the one that follows.
    have same : later = date.next := by
      apply laterValid.eq_of_dayNumber_eq valid.next
      rw [laterNumber, follows, valid.dayNumber_next, number]
    rw [← same]
    exact laterShows

/-- The last day before year 0 is shown in the last of the years that a word holds. -/
theorem dates_are_gregorian_yearEnd :
    dateOfDays? 18446744073708832087 = some ⟨4294967295, 12, 31⟩ ∧
      CivilDate.Valid ⟨-1, 12, 31⟩ ∧ CivilDate.dayNumber ⟨-1, 12, 31⟩ = -719529 ∧
      (dateOfDays 18446744073708832087).Shows ⟨-1, 12, 31⟩ ∧
      (dateOfDays 18446744073708832088).Shows ⟨0, 1, 1⟩ := by
  have valid : CivilDate.Valid ⟨-1, 12, 31⟩ := ⟨by decide, by decide, by decide, by decide⟩
  have number : CivilDate.dayNumber ⟨-1, 12, 31⟩ = -719529 := by
    rw [CivilDate.dayNumber, daysBeforeYear_eq]
    rfl
  have read : (18446744073708832087 : UInt64).toInt64.toInt = -719529 := by decide
  have shown : dateOfDays 18446744073708832087 = ⟨4294967295, 12, 31⟩ := by decide +kernel
  rcases dates_are_gregorian 18446744073708832087 with ⟨fits, gregorian⟩
  rcases gregorian (by decide) with ⟨date, found, same, shows, following⟩
  rw [read, ← number] at same
  rw [found.eq_of_dayNumber_eq valid same] at shows following
  have whole := fits.mpr (by decide)
  rw [shown] at whole
  exact ⟨whole, valid, number, shows, following (by decide)⟩

end Days

end StackMachine.Calendar
