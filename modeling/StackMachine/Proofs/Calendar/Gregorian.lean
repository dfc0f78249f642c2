import Mathlib.Algebra.BigOperators.Intervals
import Mathlib.Algebra.Order.BigOperators.Group.Finset

/-!
# The Gregorian calendar

The rules of the calendar, carried on before the first year it was used in and before year 0: which
years are leap years, how long the months are, which date follows a date, and how many days lie
between 1970-01-01 and a date.  These are the rules that a date shown for a day number is judged by,
and nothing here looks at how it is worked out.

Each day has exactly one date, since the days before a year and the days before a month grow with
the year and with the month.
-/

namespace StackMachine.Calendar

def IsLeap (year : Int) : Prop := 4 ∣ year ∧ (¬ 100 ∣ year ∨ 400 ∣ year)

instance (year : Int) : Decidable (IsLeap year) :=
  inferInstanceAs (Decidable (4 ∣ year ∧ (¬ 100 ∣ year ∨ 400 ∣ year)))

def monthLength (year : Int) (month : Nat) : Nat :=
  match month with
  | 2 => if IsLeap year then 29 else 28
  | 4 | 6 | 9 | 11 => 30
  | _ => 31

/-- The days of a year before the first of a month. -/
def daysBeforeMonth (year : Int) (month : Nat) : Nat :=
  ∑ earlier ∈ Finset.Ico 1 month, monthLength year earlier

def yearLength (year : Int) : Nat := daysBeforeMonth year 13

/-- The days from 1970-01-01 to the first day of a year, less than zero for an earlier year. -/
def daysBeforeYear (year : Int) : Int :=
  ∑ passed ∈ Finset.range (year - 1970).toNat, (yearLength (1970 + passed) : Int) -
    ∑ coming ∈ Finset.range (1970 - year).toNat, (yearLength (1969 - coming) : Int)

/-- A date of the calendar, in any year. -/
@[ext]
structure CivilDate where
  year : Int
  month : Nat
  day : Nat
  deriving DecidableEq

namespace CivilDate

/-- The calendar has this date. -/
structure Valid (date : CivilDate) : Prop where
  one_le_month : 1 ≤ date.month
  month_le : date.month ≤ 12
  one_le_day : 1 ≤ date.day
  day_le : date.day ≤ monthLength date.year date.month

/-- The days from 1970-01-01 to a date, less than zero for an earlier one. -/
def dayNumber (date : CivilDate) : Int :=
  daysBeforeYear date.year + daysBeforeMonth date.year date.month + (date.day - 1)

/-- The date of the following day. -/
def next (date : CivilDate) : CivilDate :=
  if date.day < monthLength date.year date.month then { date with day := date.day + 1 }
  else if date.month < 12 then ⟨date.year, date.month + 1, 1⟩
  else ⟨date.year + 1, 1, 1⟩

end CivilDate

section Lengths

variable (year : Int) {month : Nat}

theorem one_le_monthLength (year : Int) (month : Nat) : 1 ≤ monthLength year month := by
  unfold monthLength
  split
  · split <;> decide
  all_goals decide

theorem daysBeforeMonth_succ (positive : 1 ≤ month) :
    daysBeforeMonth year (month + 1) = daysBeforeMonth year month + monthLength year month :=
  Finset.sum_Ico_succ_top positive _

theorem daysBeforeMonth_le (year : Int) {month later : Nat} (before : month ≤ later) :
    daysBeforeMonth year month ≤ daysBeforeMonth year later := by
  apply Finset.sum_le_sum_of_subset
  exact Finset.Ico_subset_Ico_right before

/-- Every fourth February has a leap day, but for three in four hundred years. -/
theorem monthLength_february :
    (monthLength year 2 : Int) = 28 + (year / 4 - (year - 1) / 4) -
      (year / 100 - (year - 1) / 100) + (year / 400 - (year - 1) / 400) := by
  change ((if IsLeap year then 29 else 28 : Nat) : Int) = _
  by_cases leap : IsLeap year
  · rw [if_pos leap]
    unfold IsLeap at leap
    omega
  · rw [if_neg leap]
    unfold IsLeap at leap
    omega

theorem monthLength_february_le : monthLength year 2 ≤ 29 := by
  change (if IsLeap year then 29 else 28) ≤ 29
  split
  all_goals decide

theorem yearLength_eq : yearLength year = 337 + monthLength year 2 := by
  simp [yearLength, daysBeforeMonth, Finset.sum_Ico_succ_top, monthLength]
  omega

theorem daysBeforeYear_succ :
    daysBeforeYear (year + 1) = daysBeforeYear year + yearLength year := by
  unfold daysBeforeYear
  by_cases passed : 1970 ≤ year
  · have forward : (year + 1 - 1970).toNat = (year - 1970).toNat + 1 := by omega
    have last : (1970 : Int) + (year - 1970).toNat = year := by omega
    have none : (1970 - (year + 1)).toNat = 0 ∧ (1970 - year).toNat = 0 := by omega
    rw [forward, Finset.sum_range_succ, last, none.1, none.2]
    omega
  · have back : (1970 - year).toNat = (1970 - (year + 1)).toNat + 1 := by omega
    have first : (1969 : Int) - (1970 - (year + 1)).toNat = year := by omega
    have none : (year + 1 - 1970).toNat = 0 ∧ (year - 1970).toNat = 0 := by omega
    rw [back, Finset.sum_range_succ, first, none.1, none.2]
    omega

theorem daysBeforeYear_le {year later : Int} (before : year ≤ later) :
    daysBeforeYear year ≤ daysBeforeYear later := by
  apply monotone_int_of_le_succ _ before
  intro year
  rw [daysBeforeYear_succ]
  omega

theorem daysBeforeYear_eq :
    daysBeforeYear year =
      365 * year + (year - 1) / 4 - (year - 1) / 100 + (year - 1) / 400 - 719527 := by
  refine Int.inductionOn' year 1970 ?zero ?succ ?pred
  case zero => decide
  case succ =>
    intro year _ ih
    have february := monthLength_february year
    rw [daysBeforeYear_succ, ih, yearLength_eq]
    omega
  case pred =>
    intro year _ ih
    have february := monthLength_february (year - 1)
    have before := daysBeforeYear_succ (year - 1)
    rw [sub_add_cancel, ih, yearLength_eq] at before
    omega

end Lengths

namespace CivilDate

variable {date other : CivilDate}

theorem Valid.daysBeforeMonth_add_day_le (valid : date.Valid) :
    daysBeforeMonth date.year date.month + date.day ≤
      daysBeforeMonth date.year (date.month + 1) := by
  rw [daysBeforeMonth_succ _ valid.one_le_month]
  exact Nat.add_le_add_left valid.day_le _

theorem Valid.daysBeforeYear_le_dayNumber (valid : date.Valid) :
    daysBeforeYear date.year ≤ date.dayNumber := by
  have positive := valid.one_le_day
  rw [dayNumber]
  omega

theorem Valid.dayNumber_lt_daysBeforeYear (valid : date.Valid) :
    date.dayNumber < daysBeforeYear (date.year + 1) := by
  have within := valid.daysBeforeMonth_add_day_le
  have whole : daysBeforeMonth date.year (date.month + 1) ≤ yearLength date.year :=
    daysBeforeMonth_le _ (Nat.succ_le_succ valid.month_le)
  rw [daysBeforeYear_succ, dayNumber]
  omega

/-- An earlier day, or the same one, is not in a later year. -/
theorem Valid.year_le_year (valid : date.Valid) (too : other.Valid)
    (before : date.dayNumber ≤ other.dayNumber) : date.year ≤ other.year := by
  by_contra later
  have apart := daysBeforeYear_le (Int.add_one_le_of_lt (not_le.mp later))
  have first := too.dayNumber_lt_daysBeforeYear
  have second := valid.daysBeforeYear_le_dayNumber
  omega

/-- Within a year an earlier day, or the same one, is not in a later month. -/
theorem Valid.month_le_month (valid : date.Valid) (too : other.Valid)
    (years : date.year = other.year) (before : date.dayNumber ≤ other.dayNumber) :
    date.month ≤ other.month := by
  by_contra later
  have follows : other.month + 1 ≤ date.month := not_le.mp later
  have apart := daysBeforeMonth_le other.year follows
  have first := too.daysBeforeMonth_add_day_le
  have second := valid.one_le_day
  simp only [dayNumber, years] at before
  omega

/-- No two dates of the calendar are the same day. -/
theorem Valid.eq_of_dayNumber_eq (valid : date.Valid) (too : other.Valid)
    (same : date.dayNumber = other.dayNumber) : date = other := by
  have years : date.year = other.year :=
    le_antisymm (valid.year_le_year too same.le) (too.year_le_year valid same.ge)
  have months : date.month = other.month :=
    le_antisymm (valid.month_le_month too years same.le)
      (too.month_le_month valid years.symm same.ge)
  have days : date.day = other.day := by
    simp only [dayNumber, years, months] at same
    omega
  exact CivilDate.ext years months days

theorem Valid.next (valid : date.Valid) : date.next.Valid := by
  unfold CivilDate.next
  split
  · rename_i more
    exact ⟨valid.one_le_month, valid.month_le, Nat.le_add_left 1 _, more⟩
  · split
    · rename_i more
      exact ⟨Nat.le_add_left 1 _, more, Nat.le_refl 1, one_le_monthLength _ _⟩
    · exact ⟨Nat.le_refl 1, Nat.le_add_left 1 11, Nat.le_refl 1, one_le_monthLength _ _⟩

/-- The following day is one day later. -/
theorem Valid.dayNumber_next (valid : date.Valid) : date.next.dayNumber = date.dayNumber + 1 := by
  have last := valid.day_le
  have first : daysBeforeMonth (date.year + 1) 1 = 0 := rfl
  unfold CivilDate.next
  split
  · simp only [dayNumber]
    omega
  · split
    · simp only [dayNumber, daysBeforeMonth_succ _ valid.one_le_month]
      omega
    · have december : date.month = 12 := by
        have bound := valid.month_le
        omega
      have whole : daysBeforeMonth date.year 13 =
          daysBeforeMonth date.year 12 + monthLength date.year 12 :=
        daysBeforeMonth_succ date.year (by decide)
      rw [december] at last
      simp only [dayNumber, daysBeforeYear_succ, yearLength, first, december] at *
      omega

end CivilDate

end StackMachine.Calendar
