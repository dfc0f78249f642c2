import Mathlib.Tactic.IntervalCases
import StackMachine.Calendar
import StackMachine.Proofs.Calendar.Gregorian

/-!
# From day numbers to dates

Every era has the same number of days, so a day number gives an era and a day within it by one
division.  For years and months that is not so: what is divided there only comes close to a count of
days.  It is exact where it matters, as it passes each multiple of the divisor on the day on which a
year or a month starts, and so the quotient is the last year or month that has started.

The rest follows from the rules of the calendar: the day found in this way lies within its month,
and its date has the number that the conversion started from.
-/

namespace StackMachine.Calendar

/-- A date as it is shown stands for one of the calendar, but a word holds its year. -/
structure Date.Shows (date : Date) (civil : CivilDate) : Prop where
  year_eq : (date.year.toNat : Int) = civil.year % 2 ^ 32
  month_eq : date.month = civil.month
  day_eq : date.day = civil.day

/-- A day of an era, less the leap days that have passed. -/
def leapless (dayOfEra : Nat) : Nat :=
  dayOfEra - dayOfEra / 1460 + dayOfEra / 36524 - dayOfEra / 146096

/-- The year of the calendar for a month of a year that starts in March. -/
def calendarYear (year : Int) (month : Nat) : Int :=
  year + if calendarMonth month ≤ 2 then 1 else 0

/-- The date of a day of a year that starts in March. -/
def civilOfMarch (year : Int) (dayOfYear : Nat) : CivilDate where
  year := calendarYear year (marchMonth dayOfYear)
  month := calendarMonth (marchMonth dayOfYear)
  day := dayOfYear - monthStart (marchMonth dayOfYear) + 1

/-- The date of a day within an era, with its whole year. -/
def civilOfEra (era : Int) (dayOfEra : Nat) : CivilDate :=
  civilOfMarch (yearOfEra dayOfEra + era * 400) (dayOfEra - yearStart (yearOfEra dayOfEra))

section Years

variable {year dayOfEra : Nat}

theorem leapless_mono : Monotone leapless := by
  apply monotone_nat_of_le_succ
  intro dayOfEra
  unfold leapless
  omega

/-- Without its leap days an era comes to the years of 365 days exactly where they start. -/
theorem leapless_yearStart : ∀ year < 400, 365 * year ≤ leapless (yearStart year) ∧
    (0 < year → leapless (yearStart year - 1) < 365 * year) := by
  decide +kernel

/-- The year found for a day is the last one that has started. -/
theorem yearStart_le_iff (inside : year < 400) :
    yearStart year ≤ dayOfEra ↔ year ≤ yearOfEra dayOfEra := by
  rcases leapless_yearStart year inside with ⟨reached, before⟩
  change _ ↔ year ≤ leapless dayOfEra / 365
  rw [Nat.le_div_iff_mul_le (by decide), Nat.mul_comm]
  constructor
  · intro started
    exact le_trans reached (leapless_mono started)
  · intro later
    by_contra waiting
    have positive : 0 < year := by
      apply Nat.pos_of_ne_zero
      rintro rfl
      exact waiting (Nat.zero_le _)
    have earlier : leapless dayOfEra ≤ leapless (yearStart year - 1) := by
      apply leapless_mono
      omega
    exact absurd (before positive) (by omega)

theorem yearOfEra_lt (inside : dayOfEra < daysPerEra) : yearOfEra dayOfEra < 400 := by
  unfold daysPerEra at inside
  unfold yearOfEra
  omega

theorem yearStart_yearOfEra_le (inside : dayOfEra < daysPerEra) :
    yearStart (yearOfEra dayOfEra) ≤ dayOfEra :=
  (yearStart_le_iff (yearOfEra_lt inside)).mpr (Nat.le_refl _)

/-- A year that starts in March ends with the February after it. -/
theorem yearStart_succ (inside : year + 1 < 400) :
    yearStart (year + 1) = yearStart year + 337 + monthLength (year + 1 : Nat) 2 := by
  have february := monthLength_february (year + 1 : Nat)
  have before : ((year + 1 : Nat) : Int) - 1 = year := by omega
  have era : ((year + 1 : Nat) : Int) / 400 = 0 ∧ (year : Int) / 400 = 0 := by omega
  rw [before, era.1, era.2] at february
  unfold yearStart
  omega

theorem dayOfYear_lt (inside : dayOfEra < daysPerEra) :
    dayOfEra - yearStart (yearOfEra dayOfEra) <
      337 + monthLength (yearOfEra dayOfEra + 1 : Nat) 2 := by
  by_cases follows : yearOfEra dayOfEra + 1 < 400
  · have waiting : dayOfEra < yearStart (yearOfEra dayOfEra + 1) := by
      by_contra started
      have later := (yearStart_le_iff follows).mp (not_lt.mp started)
      omega
    have length := yearStart_succ follows
    omega
  · -- The last year of an era is as long as any, since its February is in a year that 400 divides.
    have last : yearOfEra dayOfEra = 399 := by
      have bound := yearOfEra_lt inside
      omega
    have length : 337 + monthLength (399 + 1 : Nat) 2 = 366 := by decide
    have start : yearStart 399 = 145731 := by decide
    rw [last, length, start]
    unfold daysPerEra at inside
    omega

end Years

section Months

variable {month dayOfYear : Nat}

/-- The month found for a day is the last one that has started. -/
theorem monthStart_le_iff : monthStart month ≤ dayOfYear ↔ month ≤ marchMonth dayOfYear := by
  unfold monthStart marchMonth
  omega

theorem marchMonth_lt (inside : dayOfYear < 366) : marchMonth dayOfYear < 12 := by
  unfold marchMonth
  omega

theorem monthStart_marchMonth_le (dayOfYear : Nat) :
    monthStart (marchMonth dayOfYear) ≤ dayOfYear :=
  monthStart_le_iff.mpr (Nat.le_refl _)

theorem lt_monthStart_succ (dayOfYear : Nat) :
    dayOfYear < monthStart (marchMonth dayOfYear + 1) := by
  by_contra started
  have later := monthStart_le_iff.mp (not_lt.mp started)
  omega

theorem one_le_calendarMonth (inside : month < 12) : 1 ≤ calendarMonth month := by
  unfold calendarMonth
  split
  all_goals omega

theorem calendarMonth_le (inside : month < 12) : calendarMonth month ≤ 12 := by
  unfold calendarMonth
  split
  all_goals omega

theorem daysBeforeMarch_eq (year : Int) :
    daysBeforeYear year + daysBeforeMonth year 3 =
      365 * year + year / 4 - year / 100 + year / 400 - epochOffset := by
  have winter : daysBeforeMonth year 3 = 31 + monthLength year 2 := rfl
  have february := monthLength_february year
  rw [winter, daysBeforeYear_eq, epochOffset]
  omega

/-- Up to January the months from March on have the same lengths in every year. -/
theorem monthStart_succ (year : Int) (inside : month < 11) :
    monthStart (month + 1) =
      monthStart month + monthLength (calendarYear year month) (calendarMonth month) := by
  interval_cases month
  all_goals rfl

/-- The calendar goes through the months from March on in order. -/
theorem daysBefore_succ (year : Int) (inside : month < 11) :
    daysBeforeYear (calendarYear year (month + 1)) +
        daysBeforeMonth (calendarYear year (month + 1)) (calendarMonth (month + 1)) =
      daysBeforeYear (calendarYear year month) +
        daysBeforeMonth (calendarYear year month) (calendarMonth month) +
          monthLength (calendarYear year month) (calendarMonth month) := by
  rcases Nat.lt_trichotomy month 9 with before | rfl | behind
  · have here : calendarMonth month = month + 3 := if_pos (by omega)
    have there : calendarMonth (month + 1) = month + 3 + 1 := by
      rw [calendarMonth, if_pos (by omega)]
    have same : calendarYear year (month + 1) = calendarYear year month := by
      rw [calendarYear, calendarYear, here, there, if_neg (by omega), if_neg (by omega)]
    rw [same, here, there, daysBeforeMonth_succ _ (by omega)]
    omega
  · -- From December on the months belong to the year that has come.
    have whole : yearLength year = daysBeforeMonth year 12 + 31 :=
      daysBeforeMonth_succ year (by decide)
    change daysBeforeYear (year + 1) + (0 : Nat) =
      daysBeforeYear (year + 0) + daysBeforeMonth (year + 0) 12 + (31 : Nat)
    rw [add_zero, daysBeforeYear_succ, whole]
    omega
  · rcases (by omega : month = 10) with rfl
    change daysBeforeYear (year + 1) + (31 : Nat) =
      daysBeforeYear (year + 1) + (0 : Nat) + (31 : Nat)
    omega

theorem daysBefore_calendarMonth (year : Int) (inside : month < 12) :
    daysBeforeYear (calendarYear year month) +
        daysBeforeMonth (calendarYear year month) (calendarMonth month) =
      daysBeforeYear year + daysBeforeMonth year 3 + monthStart month := by
  induction month with
  | zero =>
      have march : calendarYear year 0 = year := Int.add_zero year
      rw [march]
      exact (Int.add_zero _).symm
  | succ month ih =>
      have before := ih (Nat.lt_of_succ_lt inside)
      have positive : month < 11 := Nat.lt_of_succ_lt_succ inside
      rw [daysBefore_succ year positive, before, monthStart_succ year positive]
      omega

/-- The calendar has the date that is found for a day of a year that starts in March. -/
theorem valid_civilOfMarch (year : Int) (inside : dayOfYear < 337 + monthLength (year + 1) 2) :
    (civilOfMarch year dayOfYear).Valid := by
  have started := monthStart_marchMonth_le dayOfYear
  have waiting := lt_monthStart_succ dayOfYear
  have short := monthLength_february_le (year + 1)
  have bound : marchMonth dayOfYear < 12 := marchMonth_lt (by omega)
  refine ⟨one_le_calendarMonth bound, calendarMonth_le bound, Nat.le_add_left 1 _, ?_⟩
  unfold civilOfMarch
  generalize marchMonth dayOfYear = month at *
  by_cases early : month < 11
  · have length := monthStart_succ year early
    simp only
    omega
  · rcases (by omega : month = 11) with rfl
    have winter : monthStart 11 = 337 := rfl
    change dayOfYear - monthStart 11 + 1 ≤ monthLength (year + 1) 2
    omega

/-- The date of a day of a year that starts in March comes as many days after its start. -/
theorem dayNumber_civilOfMarch (year : Int) (inside : dayOfYear < 366) :
    (civilOfMarch year dayOfYear).dayNumber =
      daysBeforeYear year + daysBeforeMonth year 3 + dayOfYear := by
  have started := monthStart_marchMonth_le dayOfYear
  have before := daysBefore_calendarMonth year (marchMonth_lt inside)
  simp only [CivilDate.dayNumber, civilOfMarch, before]
  omega

end Months

section Eras

variable (era : Int) {dayOfEra : Nat}

theorem monthLength_add_era (year : Int) (month : Nat) :
    monthLength (year + era * 400) month = monthLength year month := by
  have same : IsLeap (year + era * 400) ↔ IsLeap year := by
    unfold IsLeap
    omega
  simp only [monthLength, same]

theorem dateOfEra_shows (dayOfEra : Nat) :
    (dateOfEra era dayOfEra).Shows (civilOfEra era dayOfEra) := by
  refine ⟨?_, rfl, rfl⟩
  change ((UInt32.ofNat ((civilOfEra era dayOfEra).year % UInt32.size).toNat).toNat : Int) = _
  rw [UInt32.toNat_ofNat']
  unfold UInt32.size
  omega

theorem dayOfYear_lt_of_era (inside : dayOfEra < daysPerEra) :
    dayOfEra - yearStart (yearOfEra dayOfEra) <
      337 + monthLength (yearOfEra dayOfEra + era * 400 + 1) 2 := by
  have bound := dayOfYear_lt inside
  rw [← monthLength_add_era era, Nat.cast_succ, add_right_comm] at bound
  exact bound

theorem dayOfYear_lt_leap (inside : dayOfEra < daysPerEra) :
    dayOfEra - yearStart (yearOfEra dayOfEra) < 366 := by
  have bound := dayOfYear_lt inside
  have short := monthLength_february_le (yearOfEra dayOfEra + 1 : Nat)
  omega

/-- The calendar has the date that is found for a day of an era. -/
theorem valid_civilOfEra (inside : dayOfEra < daysPerEra) : (civilOfEra era dayOfEra).Valid :=
  valid_civilOfMarch _ (dayOfYear_lt_of_era era inside)

/-- The date of a day of an era comes as many days after the start of the era. -/
theorem dayNumber_civilOfEra (inside : dayOfEra < daysPerEra) :
    (civilOfEra era dayOfEra).dayNumber = era * daysPerEra + dayOfEra - epochOffset := by
  have started := yearStart_yearOfEra_le inside
  have bound := yearOfEra_lt inside
  rw [civilOfEra, dayNumber_civilOfMarch _ (dayOfYear_lt_leap inside), daysBeforeMarch_eq]
  generalize yearOfEra dayOfEra = year at *
  have leaps : ((year + era * 400) / 4 = year / 4 + era * 100) ∧
      ((year + era * 400) / 100 = year / 100 + era * 4) ∧
      ((year + era * 400) / 400 = era) := by
    omega
  rw [leaps.1, leaps.2.1, leaps.2.2]
  unfold yearStart daysPerEra at *
  omega

end Eras

end StackMachine.Calendar
